import Stencil.Config.Reading
import Stencil.Proofs.Endings
import Stencil.Proofs.QuotedText
import Stencil.Proofs.StatementLines

/-!
Configurations written as text.

A setting is a string under its key, at the root or in the table of the defaults, in any order and
among strings under keys that are not known. Main statement: whatever has been set is read, and
where nothing has been set there is the built-in value (`load_settings`).
-/

namespace Stencil

namespace Toml

/-! ## What the statements make -/

/-- The statement that sets a key to a string. -/
def Statement.ofPair (p : String × String) : Statement := .member [p.1] (.text p.2)

/-- Strings as members of a table. -/
def Members.ofPairs (ps : List (String × String)) : Members := ps.map fun p => (p.1, .text p.2)

namespace Members

theorem lookup_ofPairs (ps : List (String × String)) (key : String) :
    (ofPairs ps).lookup key = (ps.lookup key).map .text := by
  induction ps with
  | nil => rfl
  | cons p ps ih =>
    rw [ofPairs, List.map_cons, List.lookup_cons, List.lookup_cons]
    cases key == p.1
    · exact ih
    · rfl

theorem lookup_ofPairs_of_not_mem {ps : List (String × String)} {key : String}
    (h : key ∉ ps.map Prod.fst) : (ofPairs ps).lookup key = none := by
  rw [lookup_ofPairs, Option.map_eq_none_iff, List.lookup_eq_none_iff]
  intro p hp
  rw [bne_iff_ne]
  rintro rfl
  exact h (List.mem_map_of_mem hp)

theorem replace_last {outer : Members} {key : String} (h : outer.lookup key = none)
    (v v' : Value) : replace key v' (outer ++ [(key, v)]) = outer ++ [(key, v')] := by
  induction outer with
  | nil => simp [replace]
  | cons m outer ih =>
    rw [List.lookup_eq_none_iff] at h
    obtain ⟨hne, houter⟩ := List.forall_mem_cons.1 h
    have hm : m.1 ≠ key := by
      rintro rfl
      simp at hne
    rw [List.cons_append, replace, if_neg hm, ih (List.lookup_eq_none_iff.2 houter)]
    rfl

end Members

open Members

variable {ms outer inner : Members} {key table : String} {v : Value}

theorem add_rootMember (h : ms.lookup key = none) :
    Document.add ⟨ms, []⟩ (.member [key] v) = some ⟨ms ++ [(key, v)], []⟩ := by
  simp [Document.add, Members.update, addValue, addMember, h]

theorem add_header (h : ms.lookup key = none) (current : List String) :
    Document.add ⟨ms, current⟩ (.header [key]) =
      some ⟨ms ++ [(key, .table .header [])], [key]⟩ := by
  simp [Document.add, Members.update, openTable, h]

theorem add_tableMember (htable : outer.lookup table = none) (h : inner.lookup key = none) :
    Document.add ⟨outer ++ [(table, .table .header inner)], [table]⟩ (.member [key] v) =
      some ⟨outer ++ [(table, .table .header (inner ++ [(key, v)]))], [table]⟩ := by
  have hlookup : List.lookup table (outer ++ [(table, Value.table .header inner)]) =
      some (.table .header inner) := by
    simp [List.lookup_append, htable]
  simp [Document.add, Members.update, addValue, addMember, h, hlookup, replace_last htable]

/-- Strings under new keys are added one after the other, be it to the root or to a table. -/
theorem foldlM_ofPairs (place : Members → Document) (ms : Members)
    (hadd : ∀ (ms : Members) (key : String) (v : Value), ms.lookup key = none →
      (place ms).add (.member [key] v) = some (place (ms ++ [(key, v)])))
    {ps : List (String × String)} (hnodup : (ps.map Prod.fst).Nodup)
    (hnew : ∀ p ∈ ps, ms.lookup p.1 = none) :
    (ps.map Statement.ofPair).foldlM Document.add (place ms) =
      some (place (ms ++ Members.ofPairs ps)) := by
  induction ps generalizing ms with
  | nil => simp [Members.ofPairs]
  | cons p ps ih =>
    rw [List.map_cons, List.nodup_cons] at hnodup
    obtain ⟨hp, hps⟩ := List.forall_mem_cons.1 hnew
    rw [List.map_cons, List.foldlM_cons, Statement.ofPair, hadd ms p.1 _ hp, Option.bind_eq_bind,
      Option.bind_some, ih _ hnodup.2]
    · simp [Members.ofPairs]
    · intro q hq
      have hne : (q.1 == p.1) = false := by
        rw [beq_eq_false_iff_ne]
        rintro heq
        exact hnodup.1 (heq ▸ List.mem_map_of_mem hq)
      rw [List.lookup_append, hps q hq, Option.none_or, List.lookup_cons, hne]
      rfl

theorem parse_eq {statements : List Statement} {text : String}
    (h : Lines statements text.toList) :
    parse text = (statements.foldlM Document.add {}).map Document.root := by
  have hmark : dropMark text.toList = text.toList := by
    rw [dropMark]
    intro cs hcs
    exact head?_lines h (by rw [hcs]; rfl)
  rw [parse, hmark, readStatements_lines h (Nat.lt_succ_self _)]
  simp only [Option.bind_eq_bind, Option.bind_some]
  cases statements.foldlM Document.add {} <;> rfl

theorem foldlM_root {top : List (String × String)} (htop : (top.map Prod.fst).Nodup) :
    (top.map Statement.ofPair).foldlM Document.add {} = some ⟨Members.ofPairs top, []⟩ :=
  foldlM_ofPairs (fun ms => ⟨ms, []⟩) [] (fun _ _ _ => add_rootMember) htop fun _ _ => rfl

/-- Strings at the root and in a table below it. -/
theorem parse_lines {text table : String} {top below : List (String × String)}
    (h : Lines (top.map .ofPair ++ .header [table] :: below.map .ofPair) text.toList)
    (htop : (top.map Prod.fst).Nodup) (htable : table ∉ top.map Prod.fst)
    (hbelow : (below.map Prod.fst).Nodup) :
    parse text =
      some (Members.ofPairs top ++ [(table, .table .header (Members.ofPairs below))]) := by
  have houter := lookup_ofPairs_of_not_mem htable
  have hinner := foldlM_ofPairs
    (fun ms => ⟨Members.ofPairs top ++ [(table, .table .header ms)], [table]⟩) []
    (fun _ _ _ => add_tableMember houter) hbelow fun _ _ => rfl
  rw [parse_eq h, List.foldlM_append, foldlM_root htop, Option.bind_eq_bind, Option.bind_some,
    List.foldlM_cons, add_header houter, Option.bind_eq_bind, Option.bind_some, hinner]
  rfl

theorem parse_rootLines {text : String} {top : List (String × String)}
    (h : Lines (top.map .ofPair) text.toList) (htop : (top.map Prod.fst).Nodup) :
    parse text = some (Members.ofPairs top) := by
  rw [parse_eq h, foldlM_root htop]
  rfl

end Toml

/-! ## Settings -/

/-- What a user may set. -/
structure Settings where
  template : Option String := none
  unresolved : Option Policy := none
  version : Option String := none
  author : Option String := none
  email : Option String := none

def Policy.name : Policy → String
  | keep => "keep"
  | remove => "remove"
  | fail => "fail"

namespace Settings

/-- The members at the root. -/
def top (s : Settings) : List (String × String) :=
  (s.template.map ("template_dir", ·)).toList ++
    (s.unresolved.map fun p => ("unresolved", p.name)).toList

/-- The members of the table of the defaults. -/
def below (s : Settings) : List (String × String) :=
  (s.version.map ("version", ·)).toList ++ (s.author.map ("author", ·)).toList ++
    (s.email.map ("email", ·)).toList

/-- What has been set, and the built-in values elsewhere. -/
def config (s : Settings) : Config where
  template := s.template.map Path.ofString
  unresolved := s.unresolved.getD .keep
  defaults := ⟨s.version.getD "0.0.1", s.author.getD "", s.email.getD ""⟩

end Settings

/-- The members that are given, and others under keys that are not known, in any order. -/
def Mixed (known : List String) (given members : List (String × String)) : Prop :=
  ∃ others, members.Perm (given ++ others) ∧ (others.map Prod.fst).Nodup ∧
    ∀ p ∈ others, p.1 ∉ known

/-- Under different keys the order of the members does not matter. -/
theorem lookup_eq_of_perm {ps qs : List (String × String)} (h : ps.Perm qs)
    (hnodup : (ps.map Prod.fst).Nodup) (key : String) : ps.lookup key = qs.lookup key := by
  induction h with
  | nil => rfl
  | cons p _ ih =>
    rw [List.map_cons, List.nodup_cons] at hnodup
    rw [List.lookup_cons, List.lookup_cons, ih hnodup.2]
  | swap p q ps =>
    have hne : q.1 ≠ p.1 := by
      rintro heq
      simp [heq] at hnodup
    by_cases hp : key = p.1
    · have hq : (key == q.1) = false := beq_eq_false_iff_ne.2 (hp ▸ hne.symm)
      rw [List.lookup_cons, hq, List.lookup_cons, List.lookup_cons, List.lookup_cons, hq]
    · have hp : (key == p.1) = false := beq_eq_false_iff_ne.2 hp
      rw [List.lookup_cons, List.lookup_cons, List.lookup_cons, List.lookup_cons, hp]
  | trans hpq _ ih₁ ih₂ =>
    exact (ih₁ hnodup).trans (ih₂ ((hpq.map Prod.fst).nodup_iff.1 hnodup))

section

variable {known : List String} {given members : List (String × String)}
  (h : Mixed known given members) (hgiven : (given.map Prod.fst).Sublist known)
  (hknown : known.Nodup)

include h hgiven hknown

theorem Mixed.nodup : (members.map Prod.fst).Nodup := by
  obtain ⟨others, hperm, hnodup, hothers⟩ := h
  rw [(hperm.map Prod.fst).nodup_iff, List.map_append, List.nodup_append]
  refine ⟨hgiven.nodup hknown, hnodup, ?_⟩
  rintro key hkey other hother rfl
  obtain ⟨p, hp, rfl⟩ := List.mem_map.1 hother
  exact hothers p hp (hgiven.subset hkey)

/-- Under a known key there is what has been given, if anything. -/
theorem Mixed.lookup_eq (key : String) (hkey : key ∈ known) :
    members.lookup key = given.lookup key := by
  have hmembers := Mixed.nodup h hgiven hknown
  obtain ⟨others, hperm, -, hothers⟩ := h
  have hnone : others.lookup key = none := by
    rw [List.lookup_eq_none_iff]
    intro p hp
    rw [bne_iff_ne]
    rintro rfl
    exact hothers p hp hkey
  rw [lookup_eq_of_perm hperm hmembers, List.lookup_append, hnone, Option.or_none]

end

/-- A text in which nothing is set but strings: the settings and others. The table of the defaults
need not be there if nothing is set in it. -/
inductive Settings.Written (s : Settings) (text : List Char) : Prop
  | full {top below : List (String × String)} :
      Mixed ["template_dir", "unresolved", "defaults"] s.top top →
      Mixed ["version", "author", "email"] s.below below →
      Toml.Lines (top.map .ofPair ++ .header ["defaults"] :: below.map .ofPair) text →
      s.Written text
  | short {top : List (String × String)} :
      Mixed ["template_dir", "unresolved", "defaults"] s.top top → s.below = [] →
      Toml.Lines (top.map .ofPair) text → s.Written text

open Toml (Members)

variable {s : Settings}

theorem lookup_top (s : Settings) :
    s.top.lookup "template_dir" = s.template ∧
      s.top.lookup "unresolved" = s.unresolved.map Policy.name ∧
      s.top.lookup "defaults" = none := by
  rcases s with ⟨_ | _, _ | _, _, _, _⟩ <;> simp [Settings.top, List.lookup_cons]

theorem lookup_below (s : Settings) :
    s.below.lookup "version" = s.version ∧ s.below.lookup "author" = s.author ∧
      s.below.lookup "email" = s.email := by
  rcases s with ⟨_, _, _ | _, _ | _, _ | _⟩ <;> simp [Settings.below, List.lookup_cons]

theorem keys_top (s : Settings) :
    (s.top.map Prod.fst).Sublist ["template_dir", "unresolved", "defaults"] := by
  rcases s with ⟨_ | _, _ | _, _, _, _⟩ <;> simp [Settings.top]

theorem keys_below (s : Settings) :
    (s.below.map Prod.fst).Sublist ["version", "author", "email"] := by
  rcases s with ⟨_, _, _ | _, _ | _, _ | _⟩ <;> simp [Settings.below]

theorem ofName?_name (policy : Policy) : Policy.ofName? policy.name = some policy := by
  cases policy <;> rfl

/-- Only the three members of the root count, whatever else there is. -/
theorem ofMembers?_eq {ms : Members}
    (htemplate : ms.lookup "template_dir" = s.template.map .text)
    (hunresolved : ms.lookup "unresolved" = (s.unresolved.map Policy.name).map .text)
    (hdefaults : ((ms.lookup "defaults").map Defaults.ofToml?).getD (some {}) =
      some s.config.defaults) :
    Config.ofMembers? ms = some s.config := by
  have htext : ∀ policy : Policy, Policy.ofToml? (.text policy.name) = some policy := ofName?_name
  rw [Config.ofMembers?, Config.template?, htemplate, hunresolved, hdefaults]
  rcases s with ⟨_ | _, _ | _, _, _, _⟩ <;> simp [Settings.config, htext]

theorem ofToml?_table {below : List (String × String)}
    (h : Mixed ["version", "author", "email"] s.below below) :
    Defaults.ofToml? (.table .header (Members.ofPairs below)) = some s.config.defaults := by
  have hlookup : ∀ key ∈ ["version", "author", "email"],
      (Members.ofPairs below).lookup key = (s.below.lookup key).map .text := by
    intro key hkey
    rw [Members.lookup_ofPairs, h.lookup_eq (keys_below s) (by decide) key hkey]
  obtain ⟨hversion, hauthor, hemail⟩ := lookup_below s
  simp only [Defaults.ofToml?, Members.text?, hlookup "version" (by decide),
    hlookup "author" (by decide), hlookup "email" (by decide), hversion, hauthor, hemail]
  rcases s with ⟨_, _, _ | _, _ | _, _ | _⟩ <;> rfl

theorem ofText?_written {text : String} (h : s.Written text.toList) :
    Config.ofText? text = some s.config := by
  have hknown : ["template_dir", "unresolved", "defaults"].Nodup := by decide
  have hbelow : ["version", "author", "email"].Nodup := by decide
  obtain ⟨htemplate, hunresolved, hdefaults⟩ := lookup_top s
  have hlookup : ∀ {top : List (String × String)},
      Mixed ["template_dir", "unresolved", "defaults"] s.top top →
      ∀ key ∈ ["template_dir", "unresolved", "defaults"],
        (Members.ofPairs top).lookup key = (s.top.lookup key).map .text := by
    intro top htop key hkey
    rw [Members.lookup_ofPairs, htop.lookup_eq (keys_top s) hknown key hkey]
  cases h with
  | @full top below htop hmixed hlines =>
    have htable : "defaults" ∉ top.map Prod.fst := by
      have hnone := htop.lookup_eq (keys_top s) hknown "defaults" (by decide)
      rw [hdefaults, List.lookup_eq_none_iff] at hnone
      rintro hmem
      obtain ⟨p, hp, heq⟩ := List.mem_map.1 hmem
      exact absurd heq.symm (bne_iff_ne.1 (hnone p hp))
    rw [Config.ofText?, Toml.parse_lines hlines (htop.nodup (keys_top s) hknown) htable
      (hmixed.nodup (keys_below s) hbelow), Option.bind_eq_bind, Option.bind_some]
    refine ofMembers?_eq ?_ ?_ ?_
    · rw [List.lookup_append, hlookup htop _ (by decide), htemplate]
      exact Option.or_none
    · rw [List.lookup_append, hlookup htop _ (by decide), hunresolved]
      exact Option.or_none
    · rw [List.lookup_append, hlookup htop _ (by decide), hdefaults]
      exact ofToml?_table hmixed
  | @short top htop hempty hlines =>
    have hnothing : s.config.defaults = {} := by
      rcases s with ⟨_, _, _ | _, _ | _, _ | _⟩ <;> simp_all [Settings.below, Settings.config]
    rw [Config.ofText?, Toml.parse_rootLines hlines (htop.nodup (keys_top s) hknown),
      Option.bind_eq_bind, Option.bind_some]
    refine ofMembers?_eq ?_ ?_ ?_
    · rw [hlookup htop _ (by decide), htemplate]
    · rw [hlookup htop _ (by decide), hunresolved]
    · rw [hlookup htop _ (by decide), hdefaults, hnothing]
      rfl

theorem hasTarget_of_read {fs : FileSystem} {p : Path} {bytes : ByteArray}
    (h : fs.read p = .ok bytes) : fs.hasTarget p := by
  rw [FileSystem.read] at h
  rw [FileSystem.hasTarget]
  cases hstatus : fs.status p with
  | ok e => rfl
  | error x =>
    rw [hstatus] at h
    cases h

/-- Whatever has been set is read, and the built-in value stands for the rest. -/
theorem load_settings {w : World} {path : Path} {text : String} (h : s.Written text.toList)
    (hread : w.files.read path = .ok text.toUTF8) :
    Config.load path w = .ok s.config w := by
  have htarget := hasTarget_of_read hread
  have hget : (get : Run World) w = .ok w w := rfl
  have hlook : ∀ failure, Run.look (·.read path) failure w = .ok text.toUTF8 w := by
    intro failure
    rw [Run.look, Run.bind_of_ok hget, hread]
    rfl
  rw [Config.load, Run.bind_of_ok hget, htarget]
  simp only [Bool.not_true, Bool.false_eq_true, if_false]
  rw [Run.bind_of_ok (hlook _)]
  simp only [Json.fromUTF8?_toUTF8, ofText?_written h]
  rfl

/-- A policy, and an author whose name is written in escapes. -/
def sampleSettings : Settings := { unresolved := some .fail, author := some "é\"" }

def sampleText : String :=
  "other = \"x\"\r\nunresolved = \"fail\" # ends\n\n[ defaults ]\nauthor=\"\\u00e9\\\"\""

theorem written_sampleText : sampleSettings.Written sampleText.toList := by
  have hletters : ∀ cs : List Char, (cs.all fun c => c ≠ '"' ∧ c ≠ '\\' ∧ 0x20 ≤ c.toNat ∧
      c.toNat ≠ 0x7f) → Spelled Toml.Spelling cs cs := by
    intro cs
    induction cs with
    | nil => exact fun _ => .nil
    | cons c cs ih =>
      intro hcs
      rw [List.all_cons, Bool.and_eq_true, decide_eq_true_eq] at hcs
      obtain ⟨⟨hquote, hback, hlow, hdel⟩, hcs⟩ := hcs
      exact Spelled.cons (.plain hquote hback (.inr hlow) hdel) (ih hcs)
  have hauthor : Spelled Toml.Spelling "é\"".toList "\\u00e9\\\"".toList :=
    Spelled.cons (Toml.Spelling.short rfl ⟨[0, 0, 14, 9], .cons (.inl rfl) (.cons (.inl rfl)
      (.cons (.inl rfl) (.cons (.inl rfl) .nil))), by decide⟩)
      (Spelled.cons (Toml.Spelling.letter (by decide)) .nil)
  have hkeys : ∀ key ∈ ["other", "unresolved", "defaults", "author"], Toml.BareKey key := by
    rintro key hkey
    simp only [List.mem_cons, List.not_mem_nil, or_false] at hkey
    rcases hkey with rfl | rfl | rfl | rfl <;>
      exact ⟨by decide, List.all_iff_forall_prop.1 (by decide)⟩
  have hother : Toml.Line [.ofPair ("other", "x")] "other = \"x\"".toList :=
    .member (hkeys "other" (by decide)) (hletters "x".toList (by decide)) Toml.blanks_nil
      Toml.blanks_single Toml.blanks_single (.blanks Toml.blanks_nil)
  have hpolicy : Toml.Line [.ofPair ("unresolved", "fail")] "unresolved = \"fail\" # ends".toList :=
    .member (hkeys "unresolved" (by decide)) (hletters "fail".toList (by decide)) Toml.blanks_nil
      Toml.blanks_single Toml.blanks_single
      (@Toml.LineTail.comment [' '] " ends".toList Toml.blanks_single
        (List.all_eq_true.1 (by decide)))
  have hempty : Toml.Line [] [] := .empty (.blanks Toml.blanks_nil)
  have hheader : Toml.Line [.header ["defaults"]] "[ defaults ]".toList :=
    .header (hkeys "defaults" (by decide)) Toml.blanks_nil Toml.blanks_single Toml.blanks_single
      (.blanks Toml.blanks_nil)
  have hlast : Toml.Line [.ofPair ("author", "é\"")] "author=\"\\u00e9\\\"\"".toList :=
    .member (hkeys "author" (by decide)) hauthor Toml.blanks_nil Toml.blanks_nil Toml.blanks_nil
      (.blanks Toml.blanks_nil)
  have hcrlf : ['\r', '\n'] ∈ [['\n'], ['\r', '\n']] := by decide
  have hlf : ['\n'] ∈ [['\n'], ['\r', '\n']] := by decide
  have hlines := Toml.Lines.next hother hcrlf (.next hpolicy hlf (.next hempty hlf
    (.next hheader hlf (.last hlast))))
  refine @Settings.Written.full _ _ [("other", "x"), ("unresolved", "fail")] [("author", "é\"")]
    ⟨[("other", "x")], .swap _ _ _, by decide, by decide⟩ ⟨[], .refl _, by decide, by decide⟩ ?_
  exact hlines

def configFiles : FileSystem where
  entries := [(["config.toml"], .file sampleText.toUTF8)]
  workingDirectory := []

theorem load_settings_sample :
    sampleSettings.Written sampleText.toList ∧
      configFiles.read ⟨["config.toml"]⟩ = .ok sampleText.toUTF8 ∧
      Config.load ⟨["config.toml"]⟩ { files := configFiles } =
        .ok ⟨none, .fail, ⟨"0.0.1", "é\"", ""⟩⟩ { files := configFiles } := by
  have hread : configFiles.read ⟨["config.toml"]⟩ = .ok sampleText.toUTF8 := rfl
  exact ⟨written_sampleText, hread, load_settings written_sampleText hread⟩

end Stencil
