import Mathlib.Data.List.Infix
import Stencil.Placeholder

/-!
How a text is read.

A stretch of text in which no delimiter begins is read as it stands (`Passes`). From outside,
reading goes on to the first opening (`read_opening`). A text without a closing is plain
(`read_unclosed`), and one with a closing has its next placeholder at the last opening that reading
comes by (`exists_token`). So a text is read placeholder by placeholder (`pieces_induction`).
-/

namespace Stencil.Piece

/-! ## Stretches without a delimiter -/

variable {pending interior cs : List Char} {c : Char}

theorem read_outside (h : c ≠ '{' ∨ cs.head? ≠ some '{') :
    read pending none (c :: cs) = read (c :: pending) none cs := by
  rw [read]
  rintro rest rfl rfl
  simp at h

theorem read_inside (hopen : c ≠ '{' ∨ cs.head? ≠ some '{')
    (hclose : c ≠ '}' ∨ cs.head? ≠ some '}') :
    read pending (some interior) (c :: cs) = read pending (some (c :: interior)) cs := by
  rw [read]
  · rintro rest rfl rfl
    simp at hclose
  · rintro rest rfl rfl
    simp at hopen

/-- No delimiter begins in `xs` when `rest` comes behind. -/
structure Passes (xs rest : List Char) : Prop where
  outside : ∀ pending, read pending none (xs ++ rest) = read (xs.reverse ++ pending) none rest
  inside : ∀ pending interior, read pending (some interior) (xs ++ rest) =
    read pending (some (xs.reverse ++ interior)) rest

/-- No delimiter stands in these characters or reaches out of them. -/
def inert : List Char → Bool
  | [] => true
  | [c] => c != '{' && c != '}'
  | c :: d :: cs => ((c != '{' && c != '}') || c != d) && inert (d :: cs)

theorem passes_single (hopen : c ≠ '{' ∨ cs.head? ≠ some '{')
    (hclose : c ≠ '}' ∨ cs.head? ≠ some '}') : Passes [c] cs :=
  ⟨fun _ => read_outside hopen, fun _ _ => read_inside hopen hclose⟩

theorem Passes.cons {xs rest : List Char} (h : Passes [c] (xs ++ rest)) (h' : Passes xs rest) :
    Passes (c :: xs) rest := by
  constructor
  · intro pending
    rw [List.reverse_cons, List.append_assoc, ← h'.outside]
    exact h.outside pending
  · intro pending interior
    rw [List.reverse_cons, List.append_assoc, ← h'.inside]
    exact h.inside pending interior

theorem passes_of_inert {xs : List Char} (h : inert xs) (rest : List Char) : Passes xs rest := by
  induction xs with
  | nil => exact ⟨fun _ => rfl, fun _ _ => rfl⟩
  | cons c xs ih =>
    cases xs with
    | nil =>
      simp only [inert, Bool.and_eq_true, bne_iff_ne, ne_eq] at h
      exact passes_single (.inl h.1) (.inl h.2)
    | cons d xs =>
      simp only [inert, Bool.and_eq_true, Bool.or_eq_true, bne_iff_ne, ne_eq] at h
      refine .cons (passes_single ?_ ?_) (ih h.2)
      · rcases h.1 with h | h
        · exact .inl h.1
        · by_cases hc : c = '{'
          · exact .inr fun hd => h (hc.trans (Option.some.inj hd).symm)
          · exact .inl hc
      · rcases h.1 with h | h
        · exact .inl h.2
        · by_cases hc : c = '}'
          · exact .inr fun hd => h (hc.trans (Option.some.inj hd).symm)
          · exact .inl hc

/-! ## Induction -/

/-- Induction along what reading comes by. What is pending does not count. -/
theorem reading_induction {motive : Option (List Char) → List Char → Prop}
    (done : motive none [])
    (opens : ∀ cs, motive (some []) cs → motive none ('{' :: '{' :: cs))
    (outside : ∀ c cs, (c ≠ '{' ∨ cs.head? ≠ some '{') → motive none cs → motive none (c :: cs))
    (unclosed : ∀ interior, motive (some interior) [])
    (closes : ∀ interior cs, motive none cs → motive (some interior) ('}' :: '}' :: cs))
    (reopens : ∀ interior cs, motive (some []) cs → motive (some interior) ('{' :: '{' :: cs))
    (inside : ∀ interior c cs, (c ≠ '{' ∨ cs.head? ≠ some '{') →
      (c ≠ '}' ∨ cs.head? ≠ some '}') → motive (some (c :: interior)) cs →
      motive (some interior) (c :: cs))
    (state : Option (List Char)) (cs : List Char) : motive state cs := by
  have hpair : ∀ {d c : Char} {cs : List Char}, (∀ rest, c = d → cs = d :: rest → False) →
      c ≠ d ∨ cs.head? ≠ some d := by
    intro d c cs h
    by_contra hcon
    obtain ⟨hc, hhead⟩ := not_or.1 hcon
    obtain ⟨rest, hrest⟩ := List.head?_eq_some_iff.1 (not_not.1 hhead)
    exact h rest (not_not.1 hc) hrest
  exact read.induct (motive := fun _ => motive) (fun _ => opens)
    (fun _ c cs h => outside c cs (hpair h)) (fun _ => done) (fun _ => closes) (fun _ => reopens)
    (fun _ interior c cs hclose hopen => inside interior c cs (hpair hopen) (hpair hclose))
    (fun _ => unclosed) [] state cs

/-- What is pending stands in front of the next literal, and nothing else depends on it. -/
theorem exists_plain (state : Option (List Char)) (cs : List Char) :
    ∃ plain ps, ∀ pending, read pending state cs = flush (plain ++ pending) ++ ps := by
  induction state, cs using reading_induction with
  | done => exact ⟨[], [], fun pending => by simp [read]⟩
  | opens cs ih => exact ih
  | outside c cs hc ih =>
    obtain ⟨plain, ps, h⟩ := ih
    exact ⟨plain ++ [c], ps, fun pending => by rw [read_outside hc, h]; simp⟩
  | unclosed interior => exact ⟨interior ++ ['{', '{'], [], fun pending => by simp [read]⟩
  | closes interior cs ih =>
    exact ⟨[], token interior.reverse :: read [] none cs, fun pending => rfl⟩
  | reopens interior cs ih =>
    obtain ⟨plain, ps, h⟩ := ih
    exact ⟨plain ++ (interior ++ ['{', '{']), ps, fun pending => by rw [read, h]; simp⟩
  | inside interior c cs hopen hclose ih =>
    obtain ⟨plain, ps, h⟩ := ih
    exact ⟨plain, ps, fun pending => by rw [read_inside hopen hclose, h]⟩

/-! ## Delimiters -/

theorem not_infix_cons {d : Char} :
    ¬ [d, d] <:+: c :: cs ↔ (c ≠ d ∨ cs.head? ≠ some d) ∧ ¬ [d, d] <:+: cs := by
  have hpair : [d, d] <+: c :: cs ↔ c = d ∧ cs.head? = some d := by
    rw [List.cons_prefix_cons]
    cases cs with
    | nil => simp
    | cons e cs => simp [List.cons_prefix_cons, eq_comm]
  rw [List.infix_cons_iff, hpair, not_or, not_and_or]

/-- A text in which a delimiter stands is cut where it stands first. -/
theorem exists_first {d : Char} (h : [d, d] <:+: cs) :
    ∃ before rest, cs = before ++ d :: d :: rest ∧ ¬ [d, d] <:+: before ++ [d] := by
  induction cs with
  | nil => simp at h
  | cons c cs ih =>
    by_cases hhere : c = d ∧ cs.head? = some d
    · obtain ⟨rfl, hhead⟩ := hhere
      obtain ⟨rest, rfl⟩ := List.head?_eq_some_iff.1 hhead
      exact ⟨[], rest, rfl, fun hd => absurd hd.length_le (by simp)⟩
    · have hlater : [d, d] <:+: cs := by
        by_contra hcs
        exact not_infix_cons.2 ⟨not_and_or.1 hhere, hcs⟩ h
      obtain ⟨before, rest, rfl, hbefore⟩ := ih hlater
      refine ⟨c :: before, rest, rfl, not_infix_cons.2 ⟨?_, hbefore⟩⟩
      refine (not_and_or.1 hhere).imp_right fun hhead => ?_
      cases before <;> exact hhead

theorem read_of_no_opening (h : ¬ ['{', '{'] <:+: cs) (pending : List Char) :
    read pending none cs = flush (cs.reverse ++ pending) := by
  induction cs generalizing pending with
  | nil => rfl
  | cons c cs ih =>
    obtain ⟨hc, hcs⟩ := not_infix_cons.1 h
    rw [read_outside hc, ih hcs]
    simp

/-- Characters in which no opening stands or could begin are passed, whatever comes behind. -/
theorem read_plain {plain : List Char} (h : ¬ ['{', '{'] <:+: plain ++ ['{'])
    (pending rest : List Char) :
    read pending none (plain ++ rest) = read (plain.reverse ++ pending) none rest := by
  induction plain generalizing pending with
  | nil => rfl
  | cons c plain ih =>
    obtain ⟨hc, hplain⟩ := not_infix_cons.1 h
    have hpasses : c ≠ '{' ∨ (plain ++ rest).head? ≠ some '{' := by
      cases plain with
      | nil => exact .inl (by simpa using hc)
      | cons d plain => exact hc
    rw [List.cons_append, read_outside hpasses, ih hplain]
    simp

theorem read_opening {before : List Char} (h : ¬ ['{', '{'] <:+: before ++ ['{'])
    (pending rest : List Char) :
    read pending none (before ++ '{' :: '{' :: rest) =
      read (before.reverse ++ pending) (some []) rest :=
  read_plain h pending _

/-- Without a closing all is plain text, also what comes behind an opening. -/
theorem read_unclosed (h : ¬ ['}', '}'] <:+: cs) (pending : List Char)
    (state : Option (List Char)) :
    read pending state cs = flush (consumed pending state ++ cs).reverse := by
  induction state, cs using reading_induction generalizing pending with
  | done => simp [read, consumed]
  | opens cs ih =>
    rw [read, ih (not_infix_cons.1 (not_infix_cons.1 h).2).2]
    simp [consumed]
  | outside c cs hc ih =>
    rw [read_outside hc, ih (not_infix_cons.1 h).2]
    simp [consumed]
  | unclosed interior => simp [read, consumed]
  | closes interior cs ih => exact absurd (List.prefix_append ['}', '}'] cs).isInfix h
  | reopens interior cs ih =>
    rw [read, ih (not_infix_cons.1 (not_infix_cons.1 h).2).2]
    simp [consumed]
  | inside interior c cs hopen hclose ih =>
    rw [read_inside hopen hclose, ih (not_infix_cons.1 h).2]
    simp [consumed]

/-! ## The last opening -/

/-- The opening braces at the end of these characters make up pairs. -/
def EndsInPairs (cs : List Char) : Prop :=
  ∃ front n, cs = front ++ List.replicate (2 * n) '{' ∧ front.getLast? ≠ some '{'

theorem endsInPairs_of_getLast (h : cs.getLast? ≠ some '{') : EndsInPairs cs :=
  ⟨cs, 0, by simp, h⟩

theorem EndsInPairs.append_pair (h : EndsInPairs cs) : EndsInPairs (cs ++ ['{', '{']) := by
  obtain ⟨front, n, rfl, hfront⟩ := h
  refine ⟨front, n + 1, ?_, hfront⟩
  rw [Nat.mul_succ, List.replicate_add, List.append_assoc]
  rfl

theorem not_infix_concat {d : Char} (h : ¬ [d, d] <:+: cs) (hlast : cs.getLast? = some d → c ≠ d) :
    ¬ [d, d] <:+: cs ++ [c] := by
  rw [List.infix_concat_iff]
  rintro (hsuffix | hinfix)
  · obtain ⟨front, hfront⟩ := (show [d] ++ [d] <:+ cs ++ [c] from hsuffix)
    rw [← List.append_assoc] at hfront
    obtain ⟨hcs, hc⟩ := List.append_inj' hfront rfl
    exact hlast (by simp [← hcs]) (by simpa using hc.symm)
  · exact h hinfix

/-- The last opening was read behind `front`, then came `interior`, and `behind` is yet to come. -/
structure Opened (front interior behind : List Char) : Prop where
  pairs : EndsInPairs front
  plain : ¬ ['{', '{'] <:+: interior
  seam : interior.getLast? = some '{' → behind.head? ≠ some '{'

variable {front behind : List Char}

theorem Opened.reopens (h : Opened front interior ('{' :: '{' :: behind)) :
    Opened (front ++ '{' :: '{' :: interior) [] behind := by
  refine ⟨?_, by simp, by simp⟩
  by_cases hempty : interior = []
  · subst hempty
    exact h.pairs.append_pair
  · refine endsInPairs_of_getLast fun hlast => h.seam ?_ rfl
    obtain ⟨x, xs, rfl⟩ := List.exists_cons_of_ne_nil hempty
    simpa [List.getLast?_append] using hlast

theorem Opened.goes_on (h : Opened front interior (c :: behind))
    (hc : c ≠ '{' ∨ behind.head? ≠ some '{') : Opened front (interior ++ [c]) behind := by
  refine ⟨h.pairs, not_infix_concat h.plain fun hlast heq => h.seam hlast (by simp [heq]), ?_⟩
  intro hlast
  exact hc.resolve_left (by simpa using hlast)

/-- With the pair between them, such characters hold a last run of braces, and the pair is the last
one that fits into the run from its left end. -/
theorem exists_run (hfront : EndsInPairs front) (hplain : ¬ ['{', '{'] <:+: interior) :
    ∃ outer n rest, front ++ '{' :: '{' :: interior = outer ++ (List.replicate n '{' ++ rest) ∧
      front ++ ['{', '{'] = outer ++ List.replicate (2 * (n / 2)) '{' ∧ 2 ≤ n ∧
      outer.getLast? ≠ some '{' ∧ rest.head? ≠ some '{' ∧ ¬ ['{', '{'] <:+: rest := by
  obtain ⟨outer, n, rfl, houter⟩ := hfront
  have hpairs : outer ++ List.replicate (2 * n) '{' ++ ['{', '{'] =
      outer ++ List.replicate (2 * n + 2) '{' := by
    rw [List.replicate_add, List.append_assoc]
    rfl
  have hsplit : outer ++ List.replicate (2 * n) '{' ++ '{' :: '{' :: interior =
      outer ++ (List.replicate (2 * n + 2) '{' ++ interior) := by
    rw [← List.append_assoc, ← hpairs]
    simp
  by_cases hhead : interior.head? = some '{'
  · -- an odd brace belongs to the run, but to no pair
    obtain ⟨rest, rfl⟩ := List.head?_eq_some_iff.1 hhead
    obtain ⟨hrest, hplain⟩ := not_infix_cons.1 hplain
    refine ⟨outer, 2 * n + 2 + 1, rest, ?_, ?_, by omega, houter, by simpa using hrest, hplain⟩
    · rw [hsplit, List.replicate_add (2 * n + 2) 1, List.append_assoc]
      rfl
    · rw [hpairs]
      congr 2
      omega
  · refine ⟨outer, 2 * n + 2, interior, hsplit, ?_, by omega, houter, hhead, hplain⟩
    rw [hpairs]
    congr 2
    omega

/-- The placeholder that ends at a closing begins at the last opening that reading comes by: in
front of it the braces make up pairs, and behind it no pair stands. -/
theorem exists_token (h : Opened front interior behind)
    (hclosing : ¬ ['}', '}'] <:+: behind ++ ['}']) :
    ∃ front' interior', front ++ '{' :: '{' :: (interior ++ behind) =
        front' ++ '{' :: '{' :: interior' ∧
      EndsInPairs front' ∧ ¬ ['{', '{'] <:+: interior' ∧
      ∀ pending rest, read (front.reverse ++ pending) (some interior.reverse)
          (behind ++ '}' :: '}' :: rest) =
        flush (front'.reverse ++ pending) ++ token interior' :: read [] none rest := by
  induction hn : behind.length using Nat.strong_induction_on generalizing front interior behind with
  | _ n ih =>
    subst hn
    cases behind with
    | nil =>
      refine ⟨front, interior, by simp, h.pairs, h.plain, fun pending rest => ?_⟩
      rw [List.nil_append, read, List.reverse_reverse]
    | cons c behind =>
      obtain ⟨hclose, hbehind⟩ := not_infix_cons.1 hclosing
      by_cases hopen : c = '{' ∧ behind.head? = some '{'
      · obtain ⟨rfl, hhead⟩ := hopen
        obtain ⟨behind, rfl⟩ := List.head?_eq_some_iff.1 hhead
        obtain ⟨front', interior', heq, hpairs, hplain, hread⟩ :=
          ih behind.length (Nat.lt_add_of_pos_right (Nat.succ_pos 1)) h.reopens
            (not_infix_cons.1 hbehind).2 rfl
        refine ⟨front', interior', by simpa using heq, hpairs, hplain, fun pending rest => ?_⟩
        rw [← hread pending rest, List.cons_append, List.cons_append, read]
        simp
      · have hopen := not_and_or.1 hopen
        obtain ⟨front', interior', heq, hpairs, hplain, hread⟩ :=
          ih behind.length (Nat.lt_succ_self _) (h.goes_on hopen) hbehind rfl
        refine ⟨front', interior', by simpa using heq, hpairs, hplain, fun pending rest => ?_⟩
        have hopen' : c ≠ '{' ∨ (behind ++ '}' :: '}' :: rest).head? ≠ some '{' := by
          refine hopen.imp_right fun hhead => ?_
          cases behind with
          | nil => simp
          | cons d behind => exact hhead
        have hclose' : c ≠ '}' ∨ (behind ++ '}' :: '}' :: rest).head? ≠ some '}' := by
          refine hclose.imp_right fun hhead => ?_
          cases behind <;> exact hhead
        rw [← hread pending rest, List.cons_append, read_inside hopen' hclose']
        simp

/-! ## The next placeholder -/

/-- No placeholder is found in these characters. -/
def Tokenless (cs : List Char) : Prop :=
  ∀ pending, read pending none cs = flush (cs.reverse ++ pending)

theorem pieces_of_tokenless (h : Tokenless cs) : pieces cs = flush cs.reverse := by
  rw [pieces, h, List.append_nil]

/-- Plain characters from which reading goes on to the placeholder with this interior. -/
structure LeadsIn (plain interior : List Char) : Prop where
  tokenless : Tokenless plain
  pairs : EndsInPairs plain
  opening : ¬ ['{', '{'] <:+: interior
  closing : ¬ ['}', '}'] <:+: interior ++ ['}']

theorem tokenless_of_unclosed {before : List Char} (hbefore : ¬ ['{', '{'] <:+: before ++ ['{'])
    (h : ¬ ['}', '}'] <:+: cs) : Tokenless (before ++ '{' :: '{' :: cs) := by
  intro pending
  rw [read_opening hbefore, read_unclosed h]
  simp [consumed]

theorem getLast?_ne_of_no_pair {d : Char} (h : ¬ [d, d] <:+: cs ++ [d]) :
    cs.getLast? ≠ some d := by
  intro hlast
  obtain ⟨front, rfl⟩ := List.getLast?_eq_some_iff.1 hlast
  exact h ⟨front, [], by simp⟩

theorem EndsInPairs.append (h : EndsInPairs cs) {before : List Char}
    (hbefore : before.getLast? ≠ some '{') : EndsInPairs (before ++ cs) := by
  obtain ⟨front, n, rfl, hfront⟩ := h
  refine ⟨before ++ front, n, by simp, ?_⟩
  by_cases hempty : front = []
  · simpa [hempty] using hbefore
  · rwa [List.getLast?_append_of_ne_nil _ hempty]

/-- Plain characters that lead in end in a brace only if an opening stands in them. -/
theorem EndsInPairs.not_infix (h : EndsInPairs cs) (hcs : ¬ ['{', '{'] <:+: cs) :
    ¬ ['{', '{'] <:+: cs ++ ['{'] := by
  refine not_infix_concat hcs fun hlast => ?_
  obtain ⟨front, n, rfl, hfront⟩ := h
  cases n with
  | zero => exact absurd (by simpa using hlast) hfront
  | succ n =>
    refine absurd ⟨front ++ List.replicate (2 * n) '{', [], ?_⟩ hcs
    rw [Nat.mul_succ, List.replicate_add, List.append_nil, List.append_assoc]
    rfl

/-- In front of the last opening before the first closing no placeholder is found. -/
theorem tokenless_of_split {before inside plain : List Char}
    (hbefore : ¬ ['{', '{'] <:+: before ++ ['{']) (hinside : ¬ ['}', '}'] <:+: inside ++ ['}'])
    (hsplit : '{' :: '{' :: inside = plain ++ '{' :: '{' :: interior) :
    Tokenless (before ++ plain) := by
  match plain, hsplit with
  | [], _ =>
    rw [List.append_nil]
    exact read_of_no_opening fun h => hbefore (h.trans (List.prefix_append _ _).isInfix)
  | [c], hsplit =>
    obtain rfl : '{' = c := (List.cons.inj hsplit).1
    exact read_of_no_opening hbefore
  | c :: d :: plain, hsplit =>
    obtain ⟨rfl, rfl, rfl⟩ : '{' = c ∧ '{' = d ∧ inside = plain ++ '{' :: '{' :: interior := by
      simpa using hsplit
    refine tokenless_of_unclosed hbefore fun h => hinside (h.trans ?_)
    exact ⟨[], '{' :: '{' :: (interior ++ ['}']), by simp⟩

/-- Either no placeholder is found in a text, or plain text leads in to the first one. -/
theorem exists_next (cs : List Char) :
    Tokenless cs ∨ ∃ plain interior rest, cs = plain ++ ((token interior).text ++ rest) ∧
      LeadsIn plain interior ∧
      ∀ pending, read pending none cs =
        flush (plain.reverse ++ pending) ++ token interior :: read [] none rest := by
  by_cases hopens : ['{', '{'] <:+: cs
  · obtain ⟨before, rest, rfl, hbefore⟩ := exists_first hopens
    by_cases hcloses : ['}', '}'] <:+: rest
    · obtain ⟨inside, rest, rfl, hinside⟩ := exists_first hcloses
      have hopened : Opened [] [] inside := ⟨endsInPairs_of_getLast (by simp), by simp, by simp⟩
      obtain ⟨plain, interior, hsplit, hpairs, hinterior, hread⟩ := exists_token hopened hinside
      simp only [List.nil_append] at hsplit
      have hsuffix : interior <:+ inside := by
        have hlength := congrArg List.length hsplit
        simp only [List.length_cons, List.length_append] at hlength
        have hlast : interior <:+ '{' :: '{' :: inside := ⟨plain ++ ['{', '{'], by simp [hsplit]⟩
        have hinside : inside <:+ '{' :: '{' :: inside := ⟨['{', '{'], rfl⟩
        exact List.suffix_of_suffix_length_le hlast hinside (by omega)
      refine .inr ⟨before ++ plain, interior, rest, ?_, ⟨?_, ?_, hinterior, ?_⟩, fun pending => ?_⟩
      · have h := congrArg (before ++ · ++ '}' :: '}' :: rest) hsplit
        simpa [text] using h
      · exact tokenless_of_split hbefore hinside hsplit
      · exact hpairs.append (getLast?_ne_of_no_pair hbefore)
      · obtain ⟨front, hfront⟩ := hsuffix
        exact fun h => hinside (h.trans ⟨front, [], by simp [← hfront]⟩)
      · have h := hread (before.reverse ++ pending) rest
        simp only [List.reverse_nil, List.nil_append] at h
        rw [read_opening hbefore, h]
        simp
    · exact .inl (tokenless_of_unclosed hbefore hcloses)
  · exact .inl (read_of_no_opening hopens)

/-- Induction over the placeholders of a text. -/
theorem pieces_induction {motive : List Char → Prop}
    (plain : ∀ cs, Tokenless cs → motive cs)
    (next : ∀ plain interior rest, LeadsIn plain interior →
      pieces (plain ++ ((token interior).text ++ rest)) =
        flush plain.reverse ++ token interior :: pieces rest →
      motive rest → motive (plain ++ ((token interior).text ++ rest)))
    (cs : List Char) : motive cs := by
  induction hn : cs.length using Nat.strong_induction_on generalizing cs with
  | _ n ih =>
    subst hn
    obtain htokenless | ⟨front, interior, rest, rfl, hleads, hread⟩ := exists_next cs
    · exact plain cs htokenless
    · have hpieces := hread []
      rw [List.append_nil] at hpieces
      refine next front interior rest hleads hpieces (ih rest.length ?_ rest rfl)
      simp [text]
      omega

end Stencil.Piece
