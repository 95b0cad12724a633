import Mathlib.Data.List.Dedup
import Stencil.Proofs.Policies

/-!
How bindings come about.

Pairs of a name and a value are taken all at once (`Bindings.collect`) or one after the other
(`Bindings.replace`). The first sorts them and keeps of each name what was given last, the second
goes to the place of the name and gives back what it finds there. Main statement: whatever has been
done, bindings are settled by the last value given to each name, and so is what is filled in with
them (`Bindings.History.result_lastValue`).
-/

namespace Stencil

/-! ## The last value of a name -/

/-- The last value that pairs give to a name. -/
def lastValue? (pairs : List (String × String)) (name : String) : Option String :=
  (pairs.filter (·.1 = name)).getLast?.map (·.2)

section LastValue

variable {pairs : List (String × String)} {name : String}

@[simp] theorem lastValue?_nil (name : String) : lastValue? [] name = none := rfl

theorem lastValue?_append (pairs others : List (String × String)) (name : String) :
    lastValue? (pairs ++ others) name = (lastValue? others name).or (lastValue? pairs name) := by
  simp only [lastValue?, List.filter_append, List.getLast?_append, Option.map_or]

theorem lastValue?_single (b : String × String) (name : String) :
    lastValue? [b] name = if name = b.1 then some b.2 else none := by
  by_cases h : name = b.1
  · simp [lastValue?, h]
  · simp [lastValue?, h, Ne.symm h]

theorem lastValue?_cons (b : String × String) (pairs : List (String × String)) (name : String) :
    lastValue? (b :: pairs) name =
      (lastValue? pairs name).or (if name = b.1 then some b.2 else none) := by
  rw [← List.singleton_append, lastValue?_append, lastValue?_single]

theorem isSome_lastValue?_iff : (lastValue? pairs name).isSome ↔ name ∈ pairs.map (·.1) := by
  simp [lastValue?]

/-- In increasing order a name comes once, so that its first value is its last. -/
theorem lastValue?_of_increasing (h : pairs.Pairwise (·.1 < ·.1)) (name : String) :
    lastValue? pairs name = pairs.lookup name := by
  induction pairs with
  | nil => rfl
  | cons b pairs ih =>
    obtain ⟨hb, hpairs⟩ := List.pairwise_cons.1 h
    rw [lastValue?_cons, ih hpairs, Bindings.lookup_cons_pair]
    by_cases hname : name = b.1
    · subst hname
      rw [Bindings.lookup_eq_none_of_lt hb, Option.none_or]
    · rw [if_neg hname, if_neg hname, Option.or_none]

end LastValue

namespace Bindings

/-! ## Bindings as a map -/

variable {bs cs : Bindings} {name value : String}

theorem get?_eq_some_iff : bs.get? name = some value ↔ (name, value) ∈ bs.toList := by
  refine ⟨mem_of_get?, fun hmem => ?_⟩
  obtain ⟨before, behind, hlist⟩ := List.append_of_mem hmem
  have hincreasing := hlist ▸ bs.increasing
  refine List.lookup_eq_some_iff.2 ⟨before, behind, hlist, fun b hb => bne_iff_ne.2 fun heq => ?_⟩
  have hlt := (List.pairwise_append.1 hincreasing).2.2 b hb (name, value) List.mem_cons_self
  exact String.lt_irrefl b.1 (heq ▸ hlt)

theorem isSome_get?_iff : (bs.get? name).isSome ↔ name ∈ bs.toList.map (·.1) := by
  rw [get?, ← lastValue?_of_increasing bs.increasing, isSome_lastValue?_iff]

theorem nodup_names (bs : Bindings) : (bs.toList.map (·.1)).Nodup := by
  refine List.pairwise_map.2 (bs.increasing.imp ?_)
  intro a b hlt heq
  exact String.lt_irrefl a.1 (heq ▸ hlt)

/-- The order leaves one way to write down what bindings answer. -/
theorem ext_get? (h : ∀ name, bs.get? name = cs.get? name) : bs = cs := by
  have hperm : bs.toList.Perm cs.toList := by
    rw [List.perm_ext_iff_of_nodup (.of_map _ bs.nodup_names) (.of_map _ cs.nodup_names)]
    intro b
    rw [← get?_eq_some_iff, ← get?_eq_some_iff, h]
  have hlist := hperm.eq_of_pairwise (fun _ _ _ _ hab hba => absurd hba (String.lt_asymm hab))
    bs.increasing cs.increasing
  cases bs
  cases cs
  cases hlist
  rfl

/-! ## All at once -/

/-- Of neighbours with one name, keep the last. -/
def lastOfEach : List (String × String) → List (String × String)
  | [] => []
  | [b] => [b]
  | b :: c :: bs => if b.1 = c.1 then lastOfEach (c :: bs) else b :: lastOfEach (c :: bs)

theorem lastValue?_lastOfEach (bs : List (String × String)) (name : String) :
    lastValue? (lastOfEach bs) name = lastValue? bs name := by
  fun_induction lastOfEach bs with
  | case1 => rfl
  | case2 b => rfl
  | case3 b c bs heq ih =>
    rw [ih, lastValue?_cons b, lastValue?_cons c, heq]
    cases lastValue? bs name with
    | some value => rfl
    | none => by_cases h : name = c.1 <;> simp [h]
  | case4 b c bs hne ih => rw [lastValue?_cons, lastValue?_cons, ih]

theorem lastOfEach_subset (bs : List (String × String)) : lastOfEach bs ⊆ bs := by
  fun_induction lastOfEach bs with
  | case1 => exact List.Subset.refl _
  | case2 b => exact List.Subset.refl _
  | case3 b c bs heq ih => exact List.subset_cons_of_subset b ih
  | case4 b c bs hne ih => exact List.cons_subset_cons b ih

theorem pairwise_lastOfEach {bs : List (String × String)} (h : bs.Pairwise (·.1 ≤ ·.1)) :
    (lastOfEach bs).Pairwise (·.1 < ·.1) := by
  fun_induction lastOfEach bs with
  | case1 => exact .nil
  | case2 b => exact List.pairwise_singleton _ b
  | case3 b c bs heq ih => exact ih h.of_cons
  | case4 b c bs hne ih =>
    obtain ⟨hb, hbs⟩ := List.pairwise_cons.1 h
    refine List.pairwise_cons.2 ⟨fun d hd => ?_, ih hbs⟩
    have hcd : c.1 ≤ d.1 := by
      rcases List.mem_cons.1 (lastOfEach_subset _ hd) with rfl | hd
      · exact String.le_refl _
      · exact (List.pairwise_cons.1 hbs).1 d hd
    refine String.not_le.1 fun hdb => hne ?_
    exact String.le_antisymm (hb c List.mem_cons_self) (String.le_trans hcd hdb)

/-- Sort pairs by their names. Pairs with one name stay in their order. -/
def sortPairs (pairs : List (String × String)) : List (String × String) :=
  pairs.mergeSort fun b c => b.1 ≤ c.1

theorem names_trans (a b c : String × String) (hab : decide (a.1 ≤ b.1))
    (hbc : decide (b.1 ≤ c.1)) : decide (a.1 ≤ c.1) :=
  decide_eq_true (String.le_trans (of_decide_eq_true hab) (of_decide_eq_true hbc))

theorem names_total (a b : String × String) : decide (a.1 ≤ b.1) || decide (b.1 ≤ a.1) := by
  simpa using String.le_total a.1 b.1

theorem pairwise_sortPairs (pairs : List (String × String)) :
    (sortPairs pairs).Pairwise (·.1 ≤ ·.1) :=
  (List.pairwise_mergeSort names_trans names_total pairs).imp of_decide_eq_true

/-- Sorting is stable: the pairs with one name are in order already, so that they come out as a
part of the sorted list, and there are no more of them. -/
theorem filter_sortPairs (pairs : List (String × String)) (name : String) :
    (sortPairs pairs).filter (·.1 = name) = pairs.filter (·.1 = name) := by
  have hname : ∀ b ∈ pairs.filter (·.1 = name), b.1 = name := fun b hb =>
    of_decide_eq_true (List.mem_filter.1 hb).2
  have hordered : (pairs.filter (·.1 = name)).Pairwise fun b c => decide (b.1 ≤ c.1) := by
    refine List.pairwise_of_forall_mem_list fun b hb c hc => ?_
    rw [hname b hb, hname c hc]
    exact decide_eq_true (String.le_refl name)
  have hsub := (List.sublist_mergeSort names_trans names_total hordered
    List.filter_sublist).filter (·.1 = name)
  simp only [List.filter_filter, Bool.and_self] at hsub
  exact (hsub.eq_of_length ((List.mergeSort_perm pairs _).filter _).length_eq.symm).symm

theorem lastValue?_sortPairs (pairs : List (String × String)) (name : String) :
    lastValue? (sortPairs pairs) name = lastValue? pairs name := by
  rw [lastValue?, lastValue?, filter_sortPairs]

/-- Bindings from all pairs at once. -/
def collect (pairs : List (String × String)) : Bindings :=
  ⟨lastOfEach (sortPairs pairs), pairwise_lastOfEach (pairwise_sortPairs pairs)⟩

theorem get?_collect (pairs : List (String × String)) (name : String) :
    (collect pairs).get? name = lastValue? pairs name := by
  rw [get?, ← lastValue?_of_increasing (collect pairs).increasing, collect,
    lastValue?_lastOfEach, lastValue?_sortPairs]

/-! ## What has been done -/

/-- How bindings come about. -/
inductive History
  /-- Nothing is bound. -/
  | empty
  /-- All pairs at once. -/
  | collected (pairs : List (String × String))
  /-- One name more, or another value for a name. -/
  | inserted (before : History) (name value : String)

namespace History

/-- All pairs that were given, in their order. -/
def pairs : History → List (String × String)
  | empty => []
  | collected ps => ps
  | inserted before name value => before.pairs ++ [(name, value)]

/-- The bindings in the end. -/
def result : History → Bindings
  | empty => .empty
  | collected ps => .collect ps
  | inserted before name value => (before.result.replace name value).2

theorem get?_result (h : History) (name : String) :
    h.result.get? name = lastValue? h.pairs name := by
  induction h with
  | empty => rfl
  | collected ps => exact get?_collect ps name
  | inserted before n value ih =>
    rw [result, replace_eq, get?_insert, ih, pairs, lastValue?_append, lastValue?_single]
    split <;> rfl

theorem size_result (h : History) : h.result.size = (h.pairs.map (·.1)).dedup.length := by
  have hperm : (h.result.toList.map (·.1)).Perm (h.pairs.map (·.1)).dedup := by
    rw [List.perm_ext_iff_of_nodup h.result.nodup_names (List.nodup_dedup _)]
    intro name
    rw [List.mem_dedup, ← isSome_get?_iff, ← isSome_lastValue?_iff, get?_result]
  rw [size, ← hperm.length_eq, List.length_map]

end History

theorem get?_ofList (pairs : List (String × String)) (name : String) :
    (ofList pairs).get? name = lastValue? pairs name := by
  induction pairs using List.reverseRecOn with
  | nil => rfl
  | append_singleton pairs b ih =>
    rw [ofList, List.foldl_append, ← ofList, List.foldl_cons, List.foldl_nil, get?_insert, ih,
      lastValue?_append, lastValue?_single]
    split <;> rfl

end Bindings

/-! ## Filling in -/

theorem substitute_congr {bindings others : Bindings} {text : String}
    (h : ∀ t ∈ placeholders text, bindings.get? t.name = others.get? t.name) (policy : Policy) :
    substitute text bindings policy = substitute text others policy := by
  have hnames : ∀ name ∈ (placeholders text).map (·.name),
      bindings.get? name = others.get? name := List.forall_mem_map.2 h
  have hunbound : unboundNames bindings text = unboundNames others text :=
    List.filter_congr fun name hname => by rw [hnames name hname]
  have hfilled : filledText bindings policy text = filledText others policy text :=
    filledText_congr fun interior hmem => by
      simp only [Piece.filled, hnames _ (mem_map_name hmem)]
  rw [substitute_eq, substitute_eq, hfilled, refused?, refused?, ← head?_unboundNames,
    ← head?_unboundNames, hunbound]

namespace Bindings

/-- Bindings answer with the last value of each name, hold each name once, and give back the value
that a name had when it gets another. Nothing else can be seen of what has been done: bindings are
equal exactly if each name has the same last value, and a text is filled in alike if the names in it
have. -/
theorem History.result_lastValue (h k : History) :
    h.result = ofList h.pairs ∧
      (∀ name, h.result.get? name = lastValue? h.pairs name) ∧
      h.result.size = (h.pairs.map (·.1)).dedup.length ∧
      (∀ name value, h.result.replace name value =
        (lastValue? h.pairs name, h.result.insert name value)) ∧
      (h.result = k.result ↔ ∀ name, lastValue? h.pairs name = lastValue? k.pairs name) ∧
      ∀ text policy,
        (∀ t ∈ placeholders text, lastValue? h.pairs t.name = lastValue? k.pairs t.name) →
          substitute text h.result policy = substitute text k.result policy := by
  refine ⟨ext_get? fun name => ?_, h.get?_result, h.size_result, fun name value => ?_,
    ⟨fun heq name => ?_, fun hsame => ext_get? fun name => ?_⟩, fun text policy hsame => ?_⟩
  · rw [get?_result, get?_ofList]
  · rw [replace_eq, get?_result]
  · rw [← get?_result, ← get?_result, heq]
  · rw [get?_result, get?_result, hsame]
  · refine substitute_congr (fun t ht => ?_) policy
    rw [get?_result, get?_result, hsame t ht]

/-- `{{a}}{{ c }}{{d}}`. -/
def threeNames : String :=
  "\x7b\x7ba\x7d\x7d\x7b\x7b c \x7d\x7d\x7b\x7bd\x7d\x7d"

/-- Some pairs at once, two of them with one name, and then another. -/
def gathered : History :=
  .inserted (.collected [("b", "0"), ("c", ""), ("b", "2")]) "a" "1"

/-- The same values one after the other. -/
def stepwise : History :=
  .inserted (.inserted (.inserted (.inserted .empty "a" "x") "b" "2") "a" "1") "c" ""

theorem History.result_lastValue_stepwise :
    ((∀ name, lastValue? gathered.pairs name = lastValue? stepwise.pairs name) ∧
        gathered.result = stepwise.result) ∧
      gathered.result = ofList [("b", "0"), ("c", ""), ("b", "2"), ("a", "1")] ∧
      gathered.result.size = 3 ∧
      gathered.result.replace "b" "3" = (some "2", gathered.result.insert "b" "3") ∧
      gathered.result ≠ (stepwise.inserted "b" "3").result ∧
      gathered.result ≠ (stepwise.inserted "d" "").result ∧
      (∀ t ∈ placeholders threeNames,
        lastValue? gathered.pairs t.name = lastValue? (stepwise.inserted "b" "3").pairs t.name) ∧
      ∀ policy, substitute threeNames gathered.result policy =
        substitute threeNames (stepwise.inserted "b" "3").result policy := by
  have hsame : ∀ name, lastValue? gathered.pairs name = lastValue? stepwise.pairs name := by
    intro name
    simp only [gathered, stepwise, History.pairs, lastValue?_append, lastValue?_cons,
      lastValue?_nil]
    by_cases ha : name = "a"
    · simp [ha]
    · by_cases hb : name = "b"
      · simp [hb]
      · simp [ha, hb]
  have hnames : ∀ t ∈ placeholders threeNames,
      lastValue? gathered.pairs t.name = lastValue? (stepwise.inserted "b" "3").pairs t.name := by
    decide +kernel
  obtain ⟨hlist, -, hsize, hreplace, heq, -⟩ := History.result_lastValue gathered stepwise
  obtain ⟨-, -, -, -, hvalue, htext⟩ :=
    History.result_lastValue gathered (stepwise.inserted "b" "3")
  obtain ⟨-, -, -, -, hname, -⟩ := History.result_lastValue gathered (stepwise.inserted "d" "")
  refine ⟨⟨hsame, heq.2 hsame⟩, hlist, hsize.trans (by decide), hreplace "b" "3",
    fun h => ?_, fun h => ?_, hnames, fun policy => htext threeNames policy hnames⟩
  · exact absurd (hvalue.1 h "b") (by decide)
  · exact absurd (hname.1 h "d") (by decide)

end Bindings

end Stencil
