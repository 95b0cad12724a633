import Stencil.FileSystem.Access

/-!
The template that is shipped with the program: a small web application.
-/

namespace Stencil.ShippedTemplate

/-- Lines of a file, each with its end. -/
def lines (ls : List String) : String := String.join (ls.map (· ++ "\n"))

def ignoreFile : String := lines [
  "node_modules/",
  "dist/"]

def readme : String := lines [
  "# \x7b\x7b project_name \x7d\x7d",
  "",
  "Version \x7b\x7b version \x7d\x7d.",
  "",
  "Created with `sipa new`. Start the development server with `sipa server` and",
  "build a release with `sipa build`.",
  "",
  "Maintainer notes: \x7b\x7b notes \x7d\x7d"]

def page : String := lines [
  "<!DOCTYPE html>",
  "<html lang=\"en\">",
  "<head>",
  "    <meta charset=\"utf-8\">",
  "    <meta name=\"viewport\" content=\"width=device-width, initial-scale=1\">",
  "    <title>\x7b\x7b project_name \x7d\x7d</title>",
  "    <link rel=\"stylesheet\" href=\"assets/style/app.css\">",
  "</head>",
  "<body>",
  "    <div id=\"app\" data-version=\"\x7b\x7b version \x7d\x7d\"></div>",
  "    <script src=\"assets/js/app.js\"></script>",
  "</body>",
  "</html>"]

def script : String := lines [
  "const APP_NAME = '\x7b\x7bproject_name\x7d\x7d';",
  "const APP_VERSION = '\x7b\x7bversion\x7d\x7d';",
  "",
  "document.addEventListener('DOMContentLoaded', () => \x7b",
  "    const root = document.getElementById('app');",
  "    root.textContent = `$\x7bAPP_NAME\x7d $\x7bAPP_VERSION\x7d`;",
  "\x7d);"]

def style : String := lines [
  "body \x7b",
  "    margin: 0;",
  "    font-family: sans-serif;",
  "\x7d",
  "",
  "#app \x7b",
  "    padding: 2rem;",
  "\x7d"]

/-- The files of the template: their paths below it and their texts. -/
def files : List (String × String) := [
  (".gitignore", ignoreFile),
  ("README.md", readme),
  ("app/index.html", page),
  ("app/assets/js/app.js", script),
  ("app/assets/style/app.css", style)]

/-- Put one file of the template below `root`. -/
def installFile (root : Path) (fs : FileSystem) (file : String × String) :
    Except SystemError FileSystem := do
  let directories := (Path.ofString file.1).pieces.dropLast
  let fs ← fs.createDirectories (root.joinAll directories.reverse)
  fs.write (root.joinAll (Path.ofString file.1).pieces.reverse) file.2.toUTF8

/-- Put the template at `root`. -/
def install (root : Path) (fs : FileSystem) : Except SystemError FileSystem :=
  files.foldlM (installFile root) fs

end Stencil.ShippedTemplate
