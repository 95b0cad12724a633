import Stencil.Proofs.FirstFailure
import Stencil.Proofs.QuotedText

/-!
Which files a plan names, and in which order.

A walk comes by places in the order of the names on the way to them, where names are compared by
their bytes (`pairwise_below`), and a plan keeps that order in each of its lists (`sublist_putAll`).
Main statement: a plan names every file below its root once, by what becomes of it
(`planFilling_partitions`).
-/

namespace Stencil

open FileSystem Run
open Json (utf8 utf8_nil utf8_cons toUTF8_eq_utf8)

/-! ## Names by their bytes -/

/-- Bytes are compared from the first one on. -/
theorem ofNat_cons_lt {x y : Nat} {xs ys : List UInt8} (hle : x ≤ y) (hy : y < 256)
    (h : x = y → xs < ys) : UInt8.ofNat x :: xs < UInt8.ofNat y :: ys := by
  rw [List.cons_lt_cons_iff]
  rcases Nat.lt_or_eq_of_le hle with hlt | rfl
  · left
    rw [UInt8.lt_iff_toNat_lt, UInt8.toNat_ofNat', UInt8.toNat_ofNat']
    omega
  · exact .inr ⟨rfl, h rfl⟩

/-- The four lengths that a character can have in UTF-8. -/
theorem utf8EncodeChar_cases (c : Char) :
    (c.toNat < 0x80 ∧ String.utf8EncodeChar c = [UInt8.ofNat c.toNat]) ∨
    (0x80 ≤ c.toNat ∧ c.toNat < 0x800 ∧ String.utf8EncodeChar c =
      [UInt8.ofNat (c.toNat / 64 % 32 + 192), UInt8.ofNat (c.toNat % 64 + 128)]) ∨
    (0x800 ≤ c.toNat ∧ c.toNat < 0x10000 ∧ String.utf8EncodeChar c =
      [UInt8.ofNat (c.toNat / 4096 % 16 + 224), UInt8.ofNat (c.toNat / 64 % 64 + 128),
        UInt8.ofNat (c.toNat % 64 + 128)]) ∨
    (0x10000 ≤ c.toNat ∧ c.toNat < 0x110000 ∧ String.utf8EncodeChar c =
      [UInt8.ofNat (c.toNat / 262144 % 8 + 240), UInt8.ofNat (c.toNat / 4096 % 64 + 128),
        UInt8.ofNat (c.toNat / 64 % 64 + 128), UInt8.ofNat (c.toNat % 64 + 128)]) := by
  have hvalid := c.valid
  have hc : c.val.toNat = c.toNat := rfl
  simp only [UInt32.isValidChar, Nat.isValidChar, hc] at hvalid
  rw [String.utf8EncodeChar, hc]
  by_cases h₁ : c.toNat ≤ 127
  · exact .inl ⟨by omega, if_pos h₁⟩
  · by_cases h₂ : c.toNat ≤ 2047
    · exact .inr (.inl ⟨by omega, by omega, by rw [if_neg h₁, if_pos h₂]⟩)
    · by_cases h₃ : c.toNat ≤ 65535
      · exact .inr (.inr (.inl ⟨by omega, by omega, by rw [if_neg h₁, if_neg h₂, if_pos h₃]⟩))
      · exact .inr (.inr (.inr ⟨by omega, by omega, by rw [if_neg h₁, if_neg h₂, if_neg h₃]⟩))

/-- The bytes of a smaller character are smaller, whatever comes behind them. -/
theorem utf8EncodeChar_lt {c d : Char} (h : c < d) (xs ys : List UInt8) :
    String.utf8EncodeChar c ++ xs < String.utf8EncodeChar d ++ ys := by
  have hlt : c.toNat < d.toNat := h
  obtain ⟨hc, hcs⟩ | ⟨hc, hc', hcs⟩ | ⟨hc, hc', hcs⟩ | ⟨hc, hc', hcs⟩ := utf8EncodeChar_cases c
  all_goals
    obtain ⟨hd, hds⟩ | ⟨hd, hd', hds⟩ | ⟨hd, hd', hds⟩ | ⟨hd, hd', hds⟩ := utf8EncodeChar_cases d
    all_goals
      rw [hcs, hds]
      -- byte after byte, until the numbers that are left cannot be equal
      repeat
        first
        | exact absurd hlt (by omega)
        | refine ofNat_cons_lt (by omega) (by omega) fun _ => ?_

theorem utf8_lt {cs ds : List Char} (h : cs < ds) : utf8 cs < utf8 ds := by
  induction h with
  | @nil d ds =>
    have hne : utf8 (d :: ds) ≠ [] := by
      have hpos := String.length_utf8EncodeChar d ▸ d.utf8Size_pos
      rw [utf8_cons, ← List.length_pos_iff, List.length_append]
      omega
    obtain ⟨b, bs, hbs⟩ := List.exists_cons_of_ne_nil hne
    rw [hbs]
    exact List.nil_lt_cons b bs
  | rel h => exact utf8EncodeChar_lt h _ _
  | cons _ ih => exact List.append_left_lt ih

theorem toUTF8_lt {n m : String} (h : n < m) : n.toUTF8.data.toList < m.toUTF8.data.toList := by
  rw [toUTF8_eq_utf8, toUTF8_eq_utf8]
  exact utf8_lt (String.lt_iff.1 h)

/-- The bytes of the names on the way to a place, the outermost name first. -/
def Location.nameBytes (k : Location) : List (List UInt8) :=
  k.reverse.map fun n => n.toUTF8.data.toList

theorem nameBytes_lt {k j : Location} (h : k.reverse < j.reverse) : k.nameBytes < j.nameBytes := by
  rw [Location.nameBytes, Location.nameBytes]
  generalize k.reverse = ns at h
  generalize j.reverse = ms at h
  induction h with
  | nil => exact List.nil_lt_cons _ _
  | rel h => exact List.cons_lt_cons_iff.2 (.inl (toUTF8_lt h))
  | cons _ ih => exact List.cons_lt_cons_iff.2 (.inr ⟨rfl, ih⟩)

/-! ## The order of the walk -/

variable {bindings : Bindings} {policy : Policy} {fs : FileSystem} {steps : List Step}
  {root : Path} {l : Location} {plan : Plan} {w w' : World}

theorem FileSystem.Rooted.of_below? (h : fs.Rooted root l) {s : Step} {k : Location}
    (hs : s ∈ fs.walk false root) (hk : s.below? = some k) :
    (fs.get? (k ++ l)).isSome ∧ s.path = root.joinAll k := by
  obtain ⟨n, r, e, he, -, rfl⟩ | ⟨r, -, -, -, rfl⟩ := h.mem_walk_iff.1 hs
  · obtain rfl := Option.some.inj hk
    exact ⟨Option.isSome_of_eq_some he, rfl⟩
  · simp [Step.below?] at hk

/-- The walk comes by places in the order of the names on the way to them. -/
theorem pairwise_below (h : fs.Rooted root l) :
    ((fs.walk false root).filterMap Step.below?).Pairwise fun k j => k.reverse < j.reverse := by
  have hle : ((fs.walk false root).filterMap Step.below?).Pairwise fun k j =>
      k.reverse < j.reverse ∨ k.reverse = j.reverse := by
    rw [List.pairwise_filterMap]
    refine (pairwise_walk h.wellFormed false root).imp_of_mem fun {s t} hs ht hst k hk j hj => ?_
    obtain ⟨hkfs, hkpath⟩ := h.of_below? hs hk
    obtain ⟨hjfs, hjpath⟩ := h.of_below? ht hj
    rw [hkpath, hjpath] at hst
    exact le_of_precedes h hkfs hjfs hst
  refine (hle.and (nodup_walk fs false root)).imp fun {k j} hkj => ?_
  exact hkj.1.resolve_right fun heq => hkj.2 (List.reverse_inj.1 heq)

/-! ## The lists of a plan -/

/-- Each list of a plan keeps the order in which the files came. -/
theorem sublist_putAll (plan : Plan) (xs : List (Location × Fate)) :
    List.Sublist ((plan.putAll xs).filled.map (·.file))
        (plan.filled.map (·.file) ++ xs.map (·.1)) ∧
      List.Sublist (plan.putAll xs).unchanged (plan.unchanged ++ xs.map (·.1)) ∧
      List.Sublist (plan.putAll xs).skipped (plan.skipped ++ xs.map (·.1)) := by
  induction xs generalizing plan with
  | nil => simp [Plan.putAll]
  | cons x xs ih =>
    obtain ⟨k, f⟩ := x
    -- the file comes last in one list, and is left out in the others
    have hkeep : ∀ ks : List Location,
        List.Sublist (ks ++ xs.map (·.1)) (ks ++ k :: xs.map (·.1)) :=
      fun ks => (List.sublist_cons_self k _).append_left ks
    have hlast : ∀ ks : List Location,
        List.Sublist (ks ++ [k] ++ xs.map (·.1)) (ks ++ k :: xs.map (·.1)) := by
      intro ks
      simp
    obtain ⟨hfilled, hunchanged, hskipped⟩ := ih (plan.put k f)
    cases f with
    | skipped =>
      exact ⟨hfilled.trans (hkeep _), hunchanged.trans (hkeep _), hskipped.trans (hlast _)⟩
    | unchanged =>
      exact ⟨hfilled.trans (hkeep _), hunchanged.trans (hlast _), hskipped.trans (hkeep _)⟩
    | filled text =>
      rw [Plan.put, List.map_append] at hfilled
      exact ⟨hfilled.trans (hlast _), hunchanged.trans (hkeep _), hskipped.trans (hkeep _)⟩

/-- The plan names each file below `l` once, by what `readText` gives for its path and what becomes
of that, and in the order of the names on the way to it. -/
structure Partitions (bindings : Bindings) (policy : Policy) (root : Path) (l : Location)
    (w : World) (plan : Plan) : Prop where
  once : (plan.filled.map (·.file) ++ plan.unchanged ++ plan.skipped).Nodup
  files : ∀ {k}, k ∈ plan.filled.map (·.file) ++ plan.unchanged ++ plan.skipped ↔
    k ≠ [] ∧ ∃ b, w.files.get? (k ++ l) = some (.file b)
  filled : ∀ {k result}, ⟨k, result⟩ ∈ plan.filled ↔
    k ≠ [] ∧ (∃ b, w.files.get? (k ++ l) = some (.file b)) ∧
      ∃ text, readText (root.joinAll k) w = .ok (some text) w ∧
        substitute text bindings policy = .ok result ∧ result ≠ text
  unchanged : ∀ {k}, k ∈ plan.unchanged ↔
    k ≠ [] ∧ (∃ b, w.files.get? (k ++ l) = some (.file b)) ∧
      ∃ text, readText (root.joinAll k) w = .ok (some text) w ∧
        substitute text bindings policy = .ok text
  skipped : ∀ {k}, k ∈ plan.skipped ↔
    k ≠ [] ∧ (∃ b, w.files.get? (k ++ l) = some (.file b)) ∧
      readText (root.joinAll k) w = .ok none w
  increasing : ∀ ks ∈ [plan.filled.map (·.file), plan.unchanged, plan.skipped],
    ks.Pairwise fun k j => k.nameBytes < j.nameBytes

theorem readText_eq_iff {p : Path} {b : ByteArray} (h : w.files.read p = .ok b)
    {text? : Option String} : readText p w = .ok text? w ↔ textOf? b = text? := by
  have hlook : Run.look (·.read p) (.system ("reading " ++ p.toString)) w = .ok b w := by
    rw [Run.look, bind_of_ok get_eq, h]
    rfl
  have hread : readText p w = .ok (textOf? b) w := by
    rw [readText, bind_of_ok hlook]
    rfl
  rw [hread]
  constructor
  · rintro ⟨⟩
    rfl
  · rintro rfl
    rfl

theorem fate_eq_skipped_iff {b : ByteArray} :
    fate bindings policy b = .ok .skipped ↔ textOf? b = none := by
  constructor
  · intro h
    exact (fate_skipped_iff h).1 rfl
  · intro h
    rw [fate, h]

theorem fate_eq_unchanged_iff {b : ByteArray} :
    fate bindings policy b = .ok .unchanged ↔
      ∃ text, textOf? b = some text ∧ substitute text bindings policy = .ok text := by
  constructor
  · intro h
    rcases fate_cases h with ⟨-, hf⟩ | ⟨text, result, htext, hresult, hf⟩
    · cases hf
    · by_cases heq : result = text
      · exact ⟨text, htext, heq ▸ hresult⟩
      · simp [heq] at hf
  · rintro ⟨text, htext, hresult⟩
    simp [fate, htext, hresult]

theorem fate_eq_filled_iff {b : ByteArray} {result : String} :
    fate bindings policy b = .ok (.filled result) ↔
      ∃ text, textOf? b = some text ∧ substitute text bindings policy = .ok result ∧
        result ≠ text := by
  constructor
  · intro h
    rcases fate_cases h with ⟨-, hf⟩ | ⟨text, result', htext, hresult, hf⟩
    · cases hf
    · by_cases heq : result' = text
      · simp [heq] at hf
      · obtain rfl : result = result' := by simpa [heq] using hf
        exact ⟨text, htext, hresult, heq⟩
  · rintro ⟨text, htext, hresult, hne⟩
    simp [fate, htext, hresult, hne]

/-- What becomes of a file is said by what is read from its path. -/
theorem PlanFor.has_iff_read (hplan : PlanFor bindings policy l w.files plan)
    (h : w.files.Rooted root l) (hfits : PathsFit w.files root l) {k : Location} {f : Fate}
    {P : Option String → Prop} (hf : ∀ b, fate bindings policy b = .ok f ↔ P (textOf? b)) :
    plan.Has k f ↔ k ≠ [] ∧ (∃ b, w.files.get? (k ++ l) = some (.file b)) ∧
      ∃ text?, readText (root.joinAll k) w = .ok text? w ∧ P text? := by
  have hread : ∀ {b text?}, w.files.get? (k ++ l) = some (.file b) →
      (readText (root.joinAll k) w = .ok text? w ↔ textOf? b = text?) := by
    intro b text? hb
    apply readText_eq_iff
    rw [h.read_below hb, if_pos (hfits k _ hb (by simp [Entry.kind]))]
  rw [hplan.has]
  constructor
  · rintro ⟨b, hb, hfate⟩
    exact ⟨h.ne_nil_of_file hb, ⟨b, hb⟩, _, (hread hb).2 rfl, (hf b).1 hfate⟩
  · rintro ⟨-, ⟨b, hb⟩, text?, htext, hP⟩
    obtain rfl := (hread hb).1 htext
    exact ⟨b, hb, (hf b).2 hP⟩

theorem partitions_of_fates (h : w.files.Rooted root l) {xs : List (Location × Fate)}
    (hxs : fates w.files root bindings policy (w.files.walk false root) = .ok xs) :
    Partitions bindings policy root l w (Plan.empty.putAll xs) := by
  have hplan := planFor_of_fates h hxs
  have hfits := pathsFit_of_outcomes h (fates_eq_ok hxs).1
  have hincreasing : (xs.map (·.1)).Pairwise fun k j => k.nameBytes < j.nameBytes := by
    rw [files_of_fates hxs]
    exact ((pairwise_below h).sublist (filterMap_file?_sublist _)).imp nameBytes_lt
  obtain ⟨hfilled, hunchanged, hskipped⟩ := sublist_putAll .empty xs
  constructor
  case once => exact hplan.nodup
  case files =>
    intro k
    refine hplan.mem.trans ⟨?_, And.right⟩
    rintro ⟨b, hb⟩
    exact ⟨h.ne_nil_of_file hb, b, hb⟩
  case filled =>
    intro k result
    have hhas := hplan.has_iff_read h hfits (k := k) (f := .filled result)
      (P := fun text? => ∃ text, text? = some text ∧ substitute text bindings policy = .ok result ∧
        result ≠ text) fun b => fate_eq_filled_iff
    simpa [Plan.Has] using hhas
  case unchanged =>
    intro k
    have hhas := hplan.has_iff_read h hfits (k := k) (f := .unchanged)
      (P := fun text? => ∃ text, text? = some text ∧
        substitute text bindings policy = .ok text) fun b => fate_eq_unchanged_iff
    simpa [Plan.Has] using hhas
  case skipped =>
    intro k
    have hhas := hplan.has_iff_read h hfits (k := k) (f := .skipped) (P := (· = none))
      fun b => fate_eq_skipped_iff
    simpa [Plan.Has] using hhas
  case increasing =>
    intro ks hks
    simp only [List.mem_cons, List.not_mem_nil, or_false] at hks
    rcases hks with rfl | rfl | rfl
    · exact hincreasing.sublist hfilled
    · exact hincreasing.sublist hunchanged
    · exact hincreasing.sublist hskipped

theorem partitions_of_bare (hbare : ∀ k ≠ [], ∀ b, w.files.get? (k ++ l) ≠ some (.file b)) :
    Partitions bindings policy root l w .empty := by
  have hnone : ∀ {k : Location} {P : Prop},
      ¬ (k ≠ [] ∧ (∃ b, w.files.get? (k ++ l) = some (.file b)) ∧ P) := by
    rintro k P ⟨hk, ⟨b, hb⟩, -⟩
    exact hbare k hk b hb
  refine ⟨List.nodup_nil, fun {k} => ?_, fun {k _} => ?_, fun {k} => ?_, fun {k} => ?_, ?_⟩
  · refine iff_of_false List.not_mem_nil ?_
    rintro ⟨hk, b, hb⟩
    exact hbare k hk b hb
  · exact iff_of_false List.not_mem_nil hnone
  · exact iff_of_false List.not_mem_nil hnone
  · exact iff_of_false List.not_mem_nil hnone
  · simp [Plan.empty]

/-- If the files below a root can be planned, the plan names each of them once. -/
theorem planFilling_partitions (hwf : w.files.WellFormed)
    (hrun : planFilling root bindings policy w = .ok plan w') :
    ∃ l, w.files.locate root = .ok l ∧ Partitions bindings policy root l w plan ∧
      w'.files = w.files := by
  obtain ⟨hfiles, xs, hxs, rfl⟩ := planFilling_ends.of_ok hrun
  obtain ⟨e, hstatus⟩ := exists_status_of_plan hrun
  obtain ⟨l, hlocate, h | ⟨hwalk, hbare⟩⟩ := rooted_or_bare hwf hstatus
  · exact ⟨l, hlocate, partitions_of_fates h hxs, hfiles⟩
  · rw [hwalk] at hxs
    obtain rfl := Except.ok.inj hxs
    exact ⟨l, hlocate, partitions_of_bare hbare, hfiles⟩

/-- A directory behind a link. As texts, the path `a.txt` comes before `a/z`. -/
def orderedFiles : FileSystem where
  entries := [
    (["to"], .link ⟨["d"]⟩),
    (["d"], .directory),
    (["é", "d"], .file "plain".toUTF8),
    (["z", "d"], .file "\x7b\x7b".toUTF8),
    (["a.txt", "d"], .file "{{a}}.".toUTF8),
    (["a", "d"], .directory),
    (["z", "a", "d"], .file "{{ a }}".toUTF8),
    (["to", "a", "d"], .link ⟨["z"]⟩),
    (["b", "d"], .file ⟨#[0]⟩)]
  workingDirectory := []

/-- What `a` holds comes right after it, and a letter beyond ASCII after all others. -/
theorem planFilling_partitions_ordered :
    orderedFiles.WellFormed ∧
      ∃ w', planFilling ⟨["to"]⟩ ⟨[("a", "x")], by decide⟩ .fail { files := orderedFiles } =
          .ok ⟨[⟨["z", "a"], "x"⟩, ⟨["a.txt"], "x."⟩], [["z"], ["é"]], [["b"]]⟩ w' ∧
        Partitions ⟨[("a", "x")], by decide⟩ .fail ⟨["to"]⟩ ["d"] { files := orderedFiles }
          ⟨[⟨["z", "a"], "x"⟩, ⟨["a.txt"], "x."⟩], [["z"], ["é"]], [["b"]]⟩ := by
  have hwf : orderedFiles.WellFormed := by decide
  have hlocated : (orderedFiles.locate ⟨["to"]⟩).toOption = some ["d"] := by decide +kernel
  have hrun := eq_ok_of_value? (w := { files := orderedFiles })
    (x := planFilling ⟨["to"]⟩ ⟨[("a", "x")], by decide⟩ .fail)
    (a := ⟨[⟨["z", "a"], "x"⟩, ⟨["a.txt"], "x."⟩], [["z"], ["é"]], [["b"]]⟩) (by decide +kernel)
  obtain ⟨l, hlocate, hpartitions, -⟩ :=
    planFilling_partitions (w := { files := orderedFiles }) hwf hrun
  obtain rfl : ["d"] = l := by
    rw [show orderedFiles.locate ⟨["to"]⟩ = .ok l from hlocate] at hlocated
    exact (Option.some.inj hlocated).symm
  exact ⟨hwf, _, hrun, hpartitions⟩

end Stencil
