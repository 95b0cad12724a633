import Stencil.Proofs.Survivors

/-!
One text under different policies.

The policies differ in what becomes of names without a value, and in nothing else: what is filled in
is settled by what becomes of each placeholder (`filledText_congr`). Main statement: refusing names
the first of them, leaving them out is the same as giving each an empty value, and where there is
none the policies agree (`substitute_policies`).
-/

namespace Stencil

variable {bindings others : Bindings} {policy policy' : Policy} {text : String}

/-! ## Giving many names a value -/

/-- Give each of these names the same value. -/
def Bindings.insertEach (bindings : Bindings) (names : List String) (value : String) : Bindings :=
  names.foldl (fun bs name => bs.insert name value) bindings

theorem Bindings.get?_insertEach (bindings : Bindings) (names : List String)
    (value name : String) :
    (bindings.insertEach names value).get? name =
      if name ∈ names then some value else bindings.get? name := by
  induction names generalizing bindings with
  | nil => simp [insertEach]
  | cons n names ih =>
    have hrest := ih (bindings.insert n value)
    rw [insertEach, List.foldl_cons]
    refine hrest.trans ?_
    rw [get?_insert]
    by_cases h : name ∈ names
    · rw [if_pos h, if_pos (List.mem_cons_of_mem _ h)]
    · simp [h]

/-! ## Names without a value -/

/-- The names in a text that have no value, in their order. -/
def unboundNames (bindings : Bindings) (text : String) : List String :=
  ((placeholders text).map (·.name)).filter fun name => (bindings.get? name).isNone

theorem head?_unboundNames (bindings : Bindings) (text : String) :
    (unboundNames bindings text).head? = firstUnbound? bindings text :=
  List.head?_filter

/-- What stands between the delimiters gives a name of the text. -/
theorem mem_map_name {interior : List Char} (h : interior ∈ Piece.interiors text.toList) :
    String.ofList (Text.trim interior) ∈ (placeholders text).map (·.name) := by
  have hnames := congrArg (List.map Prod.fst) (map_placeholders text)
  rw [List.map_map, List.map_map] at hnames
  have hmem := List.mem_map_of_mem (f := fun i => String.ofList (Text.trim i)) h
  exact hnames ▸ hmem

theorem mem_unboundNames_iff {interior : List Char} (h : interior ∈ Piece.interiors text.toList) :
    String.ofList (Text.trim interior) ∈ unboundNames bindings text ↔
      Piece.Unbound bindings interior := by
  rw [unboundNames, List.mem_filter, Option.isNone_iff_eq_none, Piece.Unbound]
  exact and_iff_right (mem_map_name h)

theorem refused?_eq_none (h : unboundNames bindings text = []) (policy : Policy) :
    refused? bindings policy text = none := by
  rw [refused?, ← head?_unboundNames, h]
  exact ite_self _

/-! ## Filling in -/

theorem filledText_congr (h : ∀ interior ∈ Piece.interiors text.toList,
      (Piece.token interior).filled bindings policy =
        (Piece.token interior).filled others policy') :
    filledText bindings policy text = filledText others policy' text := by
  rw [filledText, filledText, List.flatMap_congr]
  intro p hp
  cases p with
  | literal cs => rfl
  | token interior => exact h interior (Piece.mem_interiors.2 hp)

/-- Without a name to decide about, the policy does not count. -/
theorem filledText_of_no_unbound (h : unboundNames bindings text = []) (policy policy' : Policy) :
    filledText bindings policy text = filledText bindings policy' text := by
  refine filledText_congr fun interior hmem => ?_
  cases hget : bindings.get? (String.ofList (Text.trim interior)) with
  | some value => simp only [Piece.filled, hget]
  | none =>
    have hunbound := (mem_unboundNames_iff hmem).2 hget
    rw [h] at hunbound
    exact absurd hunbound List.not_mem_nil

/-- A placeholder that is left out is one with an empty value. -/
theorem filled_insertEach {interior : List Char} (h : interior ∈ Piece.interiors text.toList) :
    (Piece.token interior).filled (bindings.insertEach (unboundNames bindings text) "") .fail =
      (Piece.token interior).filled bindings .remove := by
  have hget := bindings.get?_insertEach (unboundNames bindings text) ""
    (String.ofList (Text.trim interior))
  cases hold : bindings.get? (String.ofList (Text.trim interior)) with
  | some value =>
    have hbound : String.ofList (Text.trim interior) ∉ unboundNames bindings text := by
      rw [mem_unboundNames_iff h, Piece.Unbound, hold]
      simp
    rw [if_neg hbound, hold] at hget
    simp only [Piece.filled, hget, hold]
  | none =>
    rw [if_pos ((mem_unboundNames_iff h).2 hold)] at hget
    simp only [Piece.filled, hget, hold, String.toList_empty]

theorem unboundNames_insertEach (bindings : Bindings) (text : String) :
    unboundNames (bindings.insertEach (unboundNames bindings text) "") text = [] := by
  refine List.filter_eq_nil_iff.2 fun name hname => ?_
  rw [Bindings.get?_insertEach]
  split
  · simp
  · rename_i hbound
    rw [unboundNames, List.mem_filter] at hbound
    exact fun hnone => hbound ⟨hname, hnone⟩

/-- Of the names without a value one policy refuses the first. Leaving them out is the same as giving
each an empty value and refusing none. Where no name is without a value the policies agree, and where
all are, keeping them keeps the text. -/
theorem substitute_policies (text : String) (bindings : Bindings) :
    (∀ name, substitute text bindings .fail = .error name ↔
        (unboundNames bindings text).head? = some name) ∧
      (unboundNames bindings text = [] →
        ∃ result, ∀ policy, substitute text bindings policy = .ok result) ∧
      (∃ result, substitute text bindings .remove = .ok result ∧
        substitute text (bindings.insertEach (unboundNames bindings text) "") .fail =
          .ok result) ∧
      ∀ others : Bindings, (∀ t ∈ placeholders text, others.get? t.name = none) →
        substitute text others .keep = .ok text := by
  refine ⟨fun name => ?_, fun hnone => ?_, ?_, fun others hothers => ?_⟩
  · rw [substitute_eq_error_iff, head?_unboundNames]
    exact and_iff_right rfl
  · refine ⟨filledText bindings .keep text, fun policy => ?_⟩
    rw [substitute_eq, refused?_eq_none hnone policy, filledText_of_no_unbound hnone policy .keep]
  · refine ⟨filledText bindings .remove text, ?_, ?_⟩
    · rw [substitute_eq]
      rfl
    · rw [substitute_eq, refused?_eq_none (unboundNames_insertEach bindings text),
        filledText_congr fun interior h => filled_insertEach h]
  · refine substitute_of_stays fun interior hmem => ?_
    obtain ⟨t, ht, heq⟩ := List.mem_map.1 (mem_map_name (Piece.mem_interiors.2 hmem))
    rw [Piece.Unbound, ← heq]
    exact hothers t ht

/-- `{{a}} {{ b }}{{}}-{{b}}`. -/
def mixedText : String :=
  "\x7b\x7ba\x7d\x7d \x7b\x7b b \x7d\x7d\x7b\x7b\x7d\x7d-\x7b\x7bb\x7d\x7d"

/-- Only one of the names in `mixedText` has a value. -/
def oneBound : Bindings := ⟨[("a", "1")], by decide⟩

/-- No name in `mixedText` has a value: names are not trimmed, and letters count as they are. -/
def noneBound : Bindings := ⟨[(" b ", "2"), ("A", "1")], by decide⟩

theorem substitute_policies_mixed :
    unboundNames oneBound mixedText = ["b", "", "b"] ∧
      substitute mixedText oneBound .fail = .error "b" ∧
      (substitute mixedText oneBound .remove = .ok "1 -" ∧
        substitute mixedText (oneBound.insertEach ["b", "", "b"] "") .fail = .ok "1 -") ∧
      (unboundNames (oneBound.insertEach ["b", "", "b"] "") mixedText = [] ∧
        ∃ result, ∀ policy,
          substitute mixedText (oneBound.insertEach ["b", "", "b"] "") policy = .ok result) ∧
      (∀ t ∈ placeholders mixedText, noneBound.get? t.name = none) ∧
      substitute mixedText noneBound .keep = .ok mixedText := by
  have hunbound : unboundNames oneBound mixedText = ["b", "", "b"] := by decide +kernel
  have hbound : unboundNames (oneBound.insertEach ["b", "", "b"] "") mixedText = [] := by
    decide +kernel
  have hnone : ∀ t ∈ placeholders mixedText, noneBound.get? t.name = none := by decide +kernel
  obtain ⟨hfail, -, ⟨result, hremove, hempty⟩, hkeep⟩ := substitute_policies mixedText oneBound
  obtain ⟨-, hagree, -⟩ := substitute_policies mixedText (oneBound.insertEach ["b", "", "b"] "")
  have hresult : substitute mixedText oneBound .remove = .ok "1 -" := by decide +kernel
  obtain rfl : "1 -" = result := Except.ok.inj (hresult.symm.trans hremove)
  rw [hunbound] at hempty
  exact ⟨hunbound, (hfail "b").2 (by rw [hunbound]; rfl), ⟨hremove, hempty⟩,
    ⟨hbound, hagree hbound⟩, hnone, hkeep noneBound hnone⟩

end Stencil
