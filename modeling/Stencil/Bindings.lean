/-!
Bindings: what each variable stands for. A set of bindings is a list in increasing order of the
names, so that it holds each name once and two sets that answer alike are equal.
-/

namespace Stencil

structure Bindings where
  toList : List (String × String)
  increasing : toList.Pairwise (·.1 < ·.1) := by decide
  deriving DecidableEq, Repr

namespace Bindings

/-- Put `name` in its place, over the value it had. -/
def insertSorted (name value : String) : List (String × String) → List (String × String)
  | [] => [(name, value)]
  | b :: bs =>
    if name < b.1 then (name, value) :: b :: bs
    else if name = b.1 then (name, value) :: bs
    else b :: insertSorted name value bs

theorem mem_insertSorted {name value : String} {bs : List (String × String)}
    {b : String × String} (h : b ∈ insertSorted name value bs) : b = (name, value) ∨ b ∈ bs := by
  induction bs with
  | nil => simpa [insertSorted] using h
  | cons a bs ih =>
    simp only [insertSorted] at h
    split at h
    · simpa using h
    · split at h
      · rcases List.mem_cons.1 h with h | h
        · exact .inl h
        · exact .inr (List.mem_cons_of_mem _ h)
      · rcases List.mem_cons.1 h with h | h
        · exact .inr (h ▸ List.mem_cons_self)
        · exact (ih h).imp_right (List.mem_cons_of_mem _)

theorem pairwise_insertSorted {name value : String} {bs : List (String × String)}
    (h : bs.Pairwise (·.1 < ·.1)) : (insertSorted name value bs).Pairwise (·.1 < ·.1) := by
  induction bs with
  | nil => simp [insertSorted]
  | cons a bs ih =>
    obtain ⟨ha, hbs⟩ := List.pairwise_cons.1 h
    simp only [insertSorted]
    split
    · rename_i hlt
      refine List.pairwise_cons.2 ⟨fun b hb => ?_, h⟩
      rcases List.mem_cons.1 hb with rfl | hb
      · exact hlt
      · exact String.lt_trans hlt (ha b hb)
    · split
      · rename_i heq
        exact List.pairwise_cons.2 ⟨fun b hb => heq ▸ ha b hb, hbs⟩
      · rename_i hlt hne
        refine List.pairwise_cons.2 ⟨fun b hb => ?_, ih hbs⟩
        rcases mem_insertSorted hb with rfl | hb
        · rcases Decidable.em (a.1 < name) with h | h
          · exact h
          · exact absurd (String.le_antisymm h hlt) hne
        · exact ha b hb

def empty : Bindings := ⟨[], .nil⟩

def insert (bs : Bindings) (name value : String) : Bindings :=
  ⟨insertSorted name value bs.toList, pairwise_insertSorted bs.increasing⟩

/-- The last value given to a name counts. -/
def ofList (pairs : List (String × String)) : Bindings :=
  pairs.foldl (fun bs b => bs.insert b.1 b.2) empty

def get? (bs : Bindings) (name : String) : Option String := bs.toList.lookup name

theorem lookup_cons_pair (b : String × String) (bs : List (String × String)) (name : String) :
    (b :: bs).lookup name = if name = b.1 then some b.2 else bs.lookup name := by
  rw [List.lookup_cons]
  by_cases h : name = b.1
  · rw [if_pos h, beq_iff_eq.2 h]
  · rw [if_neg h, beq_false_of_ne h]

theorem lookup_insertSorted (name value other : String) (bs : List (String × String)) :
    (insertSorted name value bs).lookup other =
      if other = name then some value else bs.lookup other := by
  induction bs with
  | nil => rw [insertSorted, lookup_cons_pair]
  | cons b bs ih =>
    simp only [insertSorted]
    split
    · rw [lookup_cons_pair (name, value)]
    · split
      · rename_i heq
        rw [lookup_cons_pair, lookup_cons_pair b]
        by_cases h : other = name <;> simp [h, ← heq]
      · rename_i hne
        rw [lookup_cons_pair, lookup_cons_pair b, ih]
        by_cases h : other = b.1
        · have hother : other ≠ name := fun heq => hne (heq.symm.trans h)
          rw [if_pos h, if_neg hother, if_pos h]
        · rw [if_neg h, if_neg h]

theorem get?_insert (bs : Bindings) (name value other : String) :
    (bs.insert name value).get? other = if other = name then some value else bs.get? other :=
  lookup_insertSorted name value other bs.toList

/-- Put `name` in its place, and give back the value that it had. -/
def replaceSorted (name value : String) :
    List (String × String) → Option String × List (String × String)
  | [] => (none, [(name, value)])
  | b :: bs =>
    if name < b.1 then (none, (name, value) :: b :: bs)
    else if name = b.1 then (some b.2, (name, value) :: bs)
    else
      let (old, rest) := replaceSorted name value bs
      (old, b :: rest)

theorem replaceSorted_snd (name value : String) (bs : List (String × String)) :
    (replaceSorted name value bs).2 = insertSorted name value bs := by
  induction bs with
  | nil => rfl
  | cons b bs ih =>
    simp only [replaceSorted, insertSorted, ← ih]
    split
    · rfl
    · split <;> rfl

theorem lookup_eq_none_of_lt {name : String} {bs : List (String × String)}
    (h : ∀ b ∈ bs, name < b.1) : bs.lookup name = none := by
  rw [List.lookup_eq_none_iff]
  intro b hb
  rw [bne_iff_ne]
  rintro rfl
  exact String.lt_irrefl _ (h b hb)

/-- The search ends where a greater name stands: none of those behind it can be the one. -/
theorem replaceSorted_fst {bs : List (String × String)} (h : bs.Pairwise (·.1 < ·.1))
    (name value : String) : (replaceSorted name value bs).1 = bs.lookup name := by
  induction bs with
  | nil => rfl
  | cons b bs ih =>
    obtain ⟨hb, hbs⟩ := List.pairwise_cons.1 h
    rw [lookup_cons_pair, ← ih hbs, replaceSorted]
    by_cases hlt : name < b.1
    · have hne : name ≠ b.1 := fun heq => String.lt_irrefl _ (heq ▸ hlt)
      have hnone := lookup_eq_none_of_lt fun c hc => String.lt_trans hlt (hb c hc)
      rw [if_pos hlt, if_neg hne, ih hbs, hnone]
    · rw [if_neg hlt]
      split <;> rfl

/-- Give a name a value. The value that it had is given back. -/
def replace (bs : Bindings) (name value : String) : Option String × Bindings :=
  ((replaceSorted name value bs.toList).1, ⟨(replaceSorted name value bs.toList).2,
    replaceSorted_snd name value bs.toList ▸ pairwise_insertSorted bs.increasing⟩)

theorem replace_eq (bs : Bindings) (name value : String) :
    bs.replace name value = (bs.get? name, bs.insert name value) := by
  simp only [replace, get?, insert, replaceSorted_fst bs.increasing, replaceSorted_snd]

/-- The number of names bound. -/
def size (bs : Bindings) : Nat := bs.toList.length

def isEmpty (bs : Bindings) : Bool := bs.toList.isEmpty

end Bindings

end Stencil
