import Stencil.Text.Blank
import Stencil.Text.Alphanumeric
import Stencil.Text.Lowercase

/-!
The dash-case form of a name: its letters and digits, ASCII capitals made small, in words joined
by single dashes. A word ends where other characters follow and where a change of case marks the
next one, so that `"My App"` and `"myApp"` both become `"my-app"`.
-/

namespace Stencil.DashCase

/-- The first letter of a new word, by its own case: anything but a small ASCII letter. -/
def startsWord (c : Char) : Bool := c.toUpper == c

/-- A small letter stands beside place `i` of `name`. The place is the number of bytes before it,
and its neighbours are looked up as characters by that number; past the end there is none. -/
def besideLowercase (name : List Char) (i : Nat) : Bool :=
  name[i + 1]?.any Text.isLowercase || name[i - 1]?.any Text.isLowercase

/-- Write the characters from byte `i` of `name` on. `fresh` holds where no dash may come: at the
beginning and after a dash. -/
def write (name : List Char) (i : Nat) (fresh : Bool) : List Char → List Char
  | [] => []
  | c :: cs =>
    let next := i + c.utf8Size
    if !Text.isAlphanumeric c then
      if fresh then write name next true cs else '-' :: write name next true cs
    else if !fresh && startsWord c && besideLowercase name i then
      '-' :: c.toLower :: write name next false cs
    else
      c.toLower :: write name next false cs

/-- Drop what follows the last letter or digit. -/
def dropTail (name : List Char) : List Char :=
  (name.reverse.dropWhile (!Text.isAlphanumeric ·)).reverse

def ofChars (name : List Char) : List Char :=
  let name := Text.trim name
  write name 0 true (dropTail name)

end Stencil.DashCase

namespace Stencil

def dashCase (name : String) : String := String.ofList (DashCase.ofChars name.toList)

example : dashCase "  My App!" = "my-app" := by decide
example : dashCase "日本語 App" = "日本-語-app" := by decide +kernel

end Stencil
