import Stencil.Proofs.SkippedValue

/-!
Objects and arrays that are asked for: the rows of their members and items, and how they are read.

A member of an object may be anything that a given relation admits; it is enough that reading one
of them takes a step of a state and goes on behind it (`Reads`). Main statement: reading an object
takes these steps one after the other, whatever the white space (`readMembers_object`).
-/

namespace Stencil.Json

/-! ## The grammar -/

/-- A name, and the text of a value. -/
def Keyed (key : String) (value cs : List Char) : Prop :=
  ∃ name gap gap', Quoted key name ∧ Gap gap ∧ Gap gap' ∧
    cs = name ++ (gap ++ ':' :: (gap' ++ value))

variable {μ σ : Type} {written : μ → List Char → Prop}

/-- Members up to the closing brace, of which there is one at least. -/
inductive Row (written : μ → List Char → Prop) : List μ → List Char → Prop
  | last {m : μ} {gap cs gap' : List Char} : Gap gap → written m cs → Gap gap' →
      Row written [m] (gap ++ (cs ++ (gap' ++ ['}'])))
  | next {m : μ} {ms : List μ} {gap cs gap' later : List Char} : Gap gap → written m cs →
      Gap gap' → Row written ms later →
      Row written (m :: ms) (gap ++ (cs ++ (gap' ++ ',' :: later)))

inductive Object (written : μ → List Char → Prop) : List μ → List Char → Prop
  | empty {gap : List Char} : Gap gap → Object written [] ('{' :: (gap ++ ['}']))
  | row {ms : List μ} {cs : List Char} : Row written ms cs → Object written ms ('{' :: cs)

/-! ## Reading members -/

variable {member : String → σ → Bytes → Except Fault (σ × Bytes)} {step : σ → μ → Except Fault σ}

/-- Reading a member takes a step, and nothing behind the member is read. -/
def Reads (member : String → σ → Bytes → Except Fault (σ × Bytes)) (step : σ → μ → Except Fault σ)
    (m : μ) (cs : List Char) : Prop :=
  ∃ key name later, Quoted key name ∧ cs = name ++ later ∧
    ∀ s bs, Delimited bs → member key s (utf8 later ++ bs) = (step s m).map (·, bs)

/-- What stands in front of a member that is not the first one. -/
def lead (first : Bool) : List Char := if first then [] else [',']

section

variable {gap gap' cs : List Char} {m : μ} {n : Nat} {first : Bool} {s : σ} {bs : Bytes}

theorem utf8_quoted {v : String} (h : Quoted v cs) :
    ∃ text, Spelled Spelling v.toList text ∧
      ∀ later, utf8 (cs ++ later) = 0x22 :: (utf8 text ++ 0x22 :: utf8 later) := by
  obtain ⟨text, htext, rfl⟩ := h
  refine ⟨text, htext, fun later => ?_⟩
  simp (disch := decide) only [utf8_append, utf8_cons_ascii, List.append_assoc, List.cons_append,
    List.nil_append]
  rfl

theorem readMembers_close (h : Gap gap) :
    readMembers member (n + 1) first s (utf8 (gap ++ ['}']) ++ bs) = .ok (s, bs) := by
  have hclose : utf8 ['}'] = [0x7d] := by decide
  rw [utf8_append, hclose, List.append_assoc, readMembers, List.singleton_append,
    skipBlanks_gap_cons h (b := 0x7d) (by decide)]
  rfl

theorem readMembers_member (h : Gap gap) (h' : Gap gap') (hm : Reads member step m cs)
    (hbs : Delimited bs) :
    readMembers member (n + 1) first s (utf8 (gap ++ (lead first ++ (gap' ++ cs))) ++ bs) =
      (step s m).bind fun s => readMembers member n false s bs := by
  obtain ⟨key, name, later, hname, rfl, hmember⟩ := hm
  obtain ⟨text, htext, hutf8⟩ := utf8_quoted hname
  have hread : ∀ later, stringText (utf8 text ++ 0x22 :: later) = .ok (key, later) :=
    stringText_spelled htext
  have hskip : ∀ later, skipBlanks (utf8 gap' ++ 0x22 :: later) = 0x22 :: later :=
    skipBlanks_gap_cons h' (by decide)
  cases first with
  | true =>
    rw [lead, if_pos rfl, List.nil_append, utf8_append, utf8_append, hutf8, List.append_assoc,
      List.append_assoc, List.cons_append, List.append_assoc, List.cons_append, readMembers,
      skipBlanks_gap h, hskip]
    simp [hread, hmember s bs hbs, bind, Except.bind]
    cases step s m <;> rfl
  | false =>
    have hcomma : utf8 (',' :: (gap' ++ (name ++ later))) =
        0x2c :: (utf8 gap' ++ utf8 (name ++ later)) := by
      rw [utf8_cons_ascii (by decide), utf8_append]
      rfl
    rw [lead, if_neg (by decide), List.singleton_append, utf8_append, hcomma, hutf8,
      List.append_assoc, List.cons_append, List.append_assoc, List.cons_append, List.append_assoc,
      List.cons_append, readMembers, skipBlanks_gap_cons h (b := 0x2c) (by decide)]
    simp [hskip, hread, hmember s bs hbs, bind, Except.bind]
    cases step s m <;> rfl

end

/-- What stands behind a member: the next one or the end. -/
theorem delimited_behind {gap : List Char} (h : Gap gap) {c : Char} (hc : c ∈ [',', ']', '}'])
    (cs : List Char) (bs : Bytes) : Delimited (utf8 (gap ++ c :: cs) ++ bs) := by
  have hall : ∀ c ∈ [',', ']', '}'], c.toNat < 0x80 ∧
      UInt8.ofNat c.toNat ∈ ([0x2c, 0x5d, 0x7d] : Bytes) := List.all_iff_forall_prop.1 (by decide)
  obtain ⟨hascii, hmem⟩ := hall c hc
  rw [utf8_append, utf8_cons_ascii hascii, List.append_assoc]
  exact delimited_gap h hmem _

/-- Reading a row takes the steps of its members one after the other. -/
theorem readMembers_row (hreads : ∀ m cs, written m cs → Reads member step m cs) {ms : List μ}
    {cs : List Char} (h : Row written ms cs) :
    ∀ n first s gap bs, Gap gap → cs.length < n →
      readMembers member n first s (utf8 (gap ++ (lead first ++ cs)) ++ bs) =
        (ms.foldlM step s).map (·, bs) := by
  induction h with
  | @last m gap cs gap' hgap hm hgap' =>
    intro n first s gap₀ bs hgap₀ hn
    simp only [List.length_append, List.length_cons, List.length_nil] at hn
    obtain ⟨n, rfl⟩ : ∃ k, n = k + 1 := ⟨n - 1, by omega⟩
    have hsplit : utf8 (gap₀ ++ (lead first ++ (gap ++ (cs ++ (gap' ++ ['}']))))) ++ bs =
        utf8 (gap₀ ++ (lead first ++ (gap ++ cs))) ++ (utf8 (gap' ++ ['}']) ++ bs) := by
      simp only [utf8_append, List.append_assoc]
    rw [hsplit, readMembers_member hgap₀ hgap (hreads m cs hm)
      (delimited_behind hgap' (by decide) [] bs), List.foldlM_cons]
    cases step s m with
    | error e => rfl
    | ok s' =>
      obtain ⟨n, rfl⟩ : ∃ k, n = k + 1 := ⟨n - 1, by omega⟩
      exact readMembers_close hgap'
  | @next m ms gap cs gap' later hgap hm hgap' _ ih =>
    intro n first s gap₀ bs hgap₀ hn
    simp only [List.length_append, List.length_cons] at hn
    obtain ⟨n, rfl⟩ : ∃ k, n = k + 1 := ⟨n - 1, by omega⟩
    have hsplit : utf8 (gap₀ ++ (lead first ++ (gap ++ (cs ++ (gap' ++ ',' :: later))))) ++ bs =
        utf8 (gap₀ ++ (lead first ++ (gap ++ cs))) ++ (utf8 (gap' ++ ',' :: later) ++ bs) := by
      simp only [utf8_append, List.append_assoc]
    rw [hsplit, readMembers_member hgap₀ hgap (hreads m cs hm)
      (delimited_behind hgap' (by decide) later bs), List.foldlM_cons]
    cases step s m with
    | error e => rfl
    | ok s' => exact ih n false s' gap' bs hgap' (by omega)

/-- Reading an object, of which the opening brace has been read. -/
theorem readMembers_object (hreads : ∀ m cs, written m cs → Reads member step m cs)
    {ms : List μ} {cs : List Char} (h : Object written ms cs) (s : σ) (bs : Bytes) :
    ∃ cs', cs = '{' :: cs' ∧
      readMembers member ((utf8 cs' ++ bs).length + 1) true s (utf8 cs' ++ bs) =
        (ms.foldlM step s).map (·, bs) := by
  cases h with
  | empty hgap => exact ⟨_, rfl, readMembers_close hgap⟩
  | @row _ cs hrow =>
    refine ⟨cs, rfl, readMembers_row hreads hrow _ true s [] bs gap_nil ?_⟩
    have hlength := length_le_utf8 cs
    rw [List.length_append]
    omega

theorem utf8_brace (cs : List Char) : utf8 ('{' :: cs) = 0x7b :: utf8 cs :=
  utf8_cons_ascii (by decide) cs

theorem map_bind_map {α : Type} (x : Except Fault σ) (complete : σ → Except Fault α) (bs : Bytes) :
    (x.map (·, bs) >>= fun p => do return (← complete p.1, p.2)) =
      (x.bind complete).map (·, bs) := by
  cases x with
  | error e => rfl
  | ok s =>
    show (complete s).bind (fun a => .ok (a, bs)) = (complete s).map (·, bs)
    cases complete s <;> rfl

/-- What is found at most once is not found twice. -/
theorem toList_ne {α : Type} (found : Option α) (v v' : α) (vs : List α) :
    found.toList ≠ v :: v' :: vs := by
  cases found <;> simp

theorem toList_inj {α : Type} {found found' : Option α} :
    found.toList = found'.toList ↔ found = found' := by
  cases found <;> cases found' <;> simp

theorem bind_eq_ok_iff {α : Type} {x : Except Fault σ} {f : σ → Except Fault α} {a : α} {s : σ}
    (h : ∀ s', f s' = .ok a ↔ s' = s) : x.bind f = .ok a ↔ x = .ok s := by
  cases x <;> simp [Except.bind, h]

theorem bind_error {α : Type} {e : Fault} {x : Except Fault σ} {f : σ → Except Fault α}
    (hx : ∀ e', x = .error e' → e' = e) (hf : ∀ s e', f s = .error e' → e' = e) {e' : Fault}
    (h : x.bind f = .error e') : e' = e := by
  cases x with
  | error _ =>
    cases h
    exact hx e' rfl
  | ok s => exact hf s e' h

theorem foldlM_error {e : Fault} (hstep : ∀ s m e', step s m = .error e' → e' = e) (ms : List μ) :
    ∀ s e', ms.foldlM step s = .error e' → e' = e := by
  induction ms with
  | nil =>
    intro s e' h
    cases h
  | cons m ms ih =>
    intro s e' h
    rw [List.foldlM_cons] at h
    exact bind_error (hstep s m) ih h

/-! ## Reading the values of members -/

theorem readMemberValue_keyed {α : Type} {value : Bytes → Except Fault (α × Bytes)}
    {gap gap' cs : List Char} (h : Gap gap) (bs : Bytes) :
    readMemberValue value (utf8 (gap ++ ':' :: (gap' ++ cs)) ++ bs) =
      value (utf8 (gap' ++ cs) ++ bs) := by
  rw [utf8_append, utf8_cons_ascii (by decide), List.append_assoc, readMemberValue,
    List.cons_append, skipBlanks_gap_cons h (by decide)]
  rfl

theorem readText_gap {v : String} {gap cs : List Char} (h : Gap gap) (hv : Quoted v cs)
    (bs : Bytes) : readText (utf8 (gap ++ cs) ++ bs) = .ok (v, bs) := by
  obtain ⟨text, htext, hutf8⟩ := utf8_quoted hv
  have hcs := hutf8 []
  rw [List.append_nil] at hcs
  rw [utf8_append, hcs, List.append_assoc, List.cons_append, List.append_assoc, readText,
    skipBlanks_gap_cons h (by decide)]
  exact stringText_spelled htext bs

theorem readText_eq {v : String} {cs : List Char} (hv : Quoted v cs) (bs : Bytes) :
    readText (utf8 cs ++ bs) = .ok (v, bs) :=
  @readText_gap v [] cs gap_nil hv bs

/-- A member of a known name may come once; its value is put into the state. -/
theorem Reads.of_known {α : Type} {key : String} {m : μ} {value cs : List Char}
    (hkeyed : Keyed key value cs) (known : σ → Option α) (put : σ → α → σ)
    (read : Bytes → Except Fault (α × Bytes)) (x : Except Fault α)
    (hmember : ∀ s bs, member key s bs =
      (readOnce (known s) read bs).bind fun p => .ok (put s p.1, p.2))
    (hstep : ∀ s, step s m = if (known s).isSome then .error .mismatched else x.map (put s))
    (hread : ∀ gap bs, Gap gap → read (utf8 (gap ++ value) ++ bs) = x.map (·, bs)) :
    Reads member step m cs := by
  obtain ⟨name, gap, gap', hname, hgap, hgap', rfl⟩ := hkeyed
  refine ⟨key, name, _, hname, rfl, fun s bs _ => ?_⟩
  rw [hmember, hstep]
  cases known s with
  | some _ => rfl
  | none =>
    rw [readOnce, readMemberValue_keyed hgap, hread gap' bs hgap']
    cases x <;> rfl

/-- The value of a member of another name is skipped. -/
theorem Reads.of_unknown {key : String} {m : μ} {value cs : List Char}
    (hkeyed : Keyed key value cs) (hvalue : Derives .value value)
    (hmember : ∀ s bs, member key s bs = (skipMemberValue bs).map (s, ·))
    (hstep : ∀ s, step s m = .ok s) : Reads member step m cs := by
  obtain ⟨name, gap, gap', hname, hgap, hgap', rfl⟩ := hkeyed
  refine ⟨key, name, _, hname, rfl, fun s bs hbs => ?_⟩
  rw [hmember, hstep, skipMemberValue, readMemberValue_keyed hgap, skipAny_value hgap' hvalue hbs]
  rfl

/-! ## Reading items -/

theorem utf8_bracket (cs : List Char) : utf8 ('[' :: cs) = 0x5b :: utf8 cs :=
  utf8_cons_ascii (by decide) cs

/-- An item stands where a text does not begin with white space or the end of an array. -/
def Begins (cs : List Char) : Prop :=
  ∃ b later, utf8 cs = b :: later ∧ ¬ isBlank b ∧ b ≠ 0x5d

theorem Quoted.begins {v : String} {cs : List Char} (h : Quoted v cs) : Begins cs := by
  obtain ⟨text, -, hutf8⟩ := utf8_quoted h
  have hcs := hutf8 []
  rw [List.append_nil] at hcs
  exact ⟨_, _, hcs, by decide, by decide⟩

theorem begins_open {c : Char} (h : c ∈ ['[', '{']) (cs : List Char) : Begins (c :: cs) := by
  have hall : ∀ c ∈ ['[', '{'], c.toNat < 0x80 ∧ ¬ isBlank (UInt8.ofNat c.toNat) ∧
      UInt8.ofNat c.toNat ≠ 0x5d := List.all_iff_forall_prop.1 (by decide)
  obtain ⟨hascii, hother⟩ := hall c h
  exact ⟨_, _, utf8_cons_ascii hascii cs, hother⟩

section

variable {gap gap' cs : List Char} (h : Gap gap) (h' : Gap gap') (hcs : Begins cs)
  (rest : List Char) (bs : Bytes)

include h hcs

theorem nextItem_first :
    nextItem true (utf8 (gap ++ (cs ++ rest)) ++ bs) = .ok (utf8 cs ++ (utf8 rest ++ bs)) := by
  obtain ⟨b, later, hutf8, hb, hend⟩ := hcs
  rw [utf8_append, utf8_append, hutf8, List.append_assoc, List.append_assoc, List.cons_append,
    nextItem, skipBlanks_gap_cons h hb]
  simp

include h'

theorem nextItem_next :
    nextItem false (utf8 (gap ++ ',' :: (gap' ++ (cs ++ rest))) ++ bs) =
      .ok (utf8 cs ++ (utf8 rest ++ bs)) := by
  obtain ⟨b, later, hutf8, hb, hend⟩ := hcs
  have hcomma : utf8 (',' :: (gap' ++ (cs ++ rest))) =
      0x2c :: (utf8 gap' ++ (b :: later ++ utf8 rest)) := by
    rw [utf8_cons_ascii (by decide), utf8_append, utf8_append, hutf8]
    rfl
  rw [utf8_append, hcomma, hutf8, List.append_assoc, List.cons_append, List.append_assoc,
    List.append_assoc, List.cons_append, nextItem, skipBlanks_gap_cons h (by decide)]
  simp [skipBlanks_gap_cons h' hb, hend]

end

theorem closeArray_eq {gap : List Char} (h : Gap gap) (bs : Bytes) :
    closeArray (utf8 (gap ++ [']']) ++ bs) = .ok bs := by
  have hclose : utf8 [']'] = [0x5d] := by decide
  rw [utf8_append, hclose, List.append_assoc, closeArray, List.singleton_append,
    skipBlanks_gap_cons h (by decide)]
  rfl

end Stencil.Json
