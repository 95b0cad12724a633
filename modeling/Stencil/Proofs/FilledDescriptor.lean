import Stencil.Proofs.DashedName
import Stencil.Proofs.DescriptorText
import Stencil.Proofs.Reading
import Stencil.Proofs.Substituting

/-!
A descriptor that is filled in.

Its text is taken as a row of symbols, the characters of its fields and the gaps between them, and
filling in leads from row to row: whatever a placeholder spans is kept as it stands, left out or
replaced by characters. Main statements: what comes out are fields in the old order
(`exists_written`), and it is read as the old descriptor only if it is the old text
(`ofBytes_filled_iff`).
-/

namespace Stencil.Json

open Piece

theorem inert_escape {c : Char} (hopen : c ≠ '{') (hclose : c ≠ '}') : inert (escape c) := by
  have hcontrol : ∀ n < 0x20,
      inert ['\\', 'u', '0', '0', hexDigit (n / 16), hexDigit (n % 16)] := by decide
  obtain ⟨x, -, -, hesc, hx, -⟩ | ⟨hlow, hesc⟩ | ⟨-, hesc⟩ := escape_cases c
  · simp [hesc, inert, hx]
  · rw [hesc]
    exact hcontrol _ hlow
  · simp [hesc, inert, hopen, hclose]

theorem head?_escape {b c : Char} (hb : b = '{' ∨ b = '}') (h : (escape c).head? = some b) :
    c = b := by
  obtain ⟨x, -, -, hesc, -⟩ | ⟨-, hesc⟩ | ⟨-, hesc⟩ := escape_cases c <;>
    rw [hesc, List.head?_cons, Option.some.injEq] at h
  · rcases hb with rfl | rfl <;> cases h
  · rcases hb with rfl | rfl <;> cases h
  · exact h

end Stencil.Json

namespace Stencil.Descriptor

open Json Piece

/-! ## Symbols -/

/-- A part of the text of a descriptor: a character of a field, or what stands between the field
before and this one. -/
inductive Symbol
  | content (c : Char)
  | gap (f : Field)

namespace Symbol

def chars : Symbol → List Char
  | content c => escape c
  | gap f => '"' :: (f.lead ++ ['"'])

def field? : Symbol → Option Field
  | content _ => none
  | gap f => some f

end Symbol

open Stencil.Descriptor.Symbol

def symbolChars (ss : List Symbol) : List Char := ss.flatMap chars

/-- The fields that begin among the symbols. -/
def begun (ss : List Symbol) : List Field := ss.filterMap field?

/-- The symbols of a value and of the fields behind it. -/
def symbols (cs : List Char) (fs : List (Field × List Char)) : List Symbol :=
  cs.map content ++ fs.flatMap fun f => gap f.1 :: f.2.map content

theorem symbolChars_cons (x : Symbol) (ss : List Symbol) :
    symbolChars (x :: ss) = x.chars ++ symbolChars ss := rfl

@[simp] theorem symbolChars_append (ss ts : List Symbol) :
    symbolChars (ss ++ ts) = symbolChars ss ++ symbolChars ts := List.flatMap_append

@[simp] theorem begun_append (ss ts : List Symbol) : begun (ss ++ ts) = begun ss ++ begun ts :=
  List.filterMap_append

theorem begun_cons (x : Symbol) (ss : List Symbol) : begun (x :: ss) = begun [x] ++ begun ss :=
  begun_append [x] ss

theorem symbolChars_content (cs : List Char) :
    symbolChars (cs.map content) = cs.flatMap escape := by
  rw [symbolChars, List.flatMap_map]
  rfl

theorem begun_content (cs : List Char) : begun (cs.map content) = [] := by
  simp [begun, field?]

theorem symbols_cons (cs : List Char) (f : Field × List Char) (fs : List (Field × List Char)) :
    symbols cs (f :: fs) = cs.map content ++ gap f.1 :: symbols f.2 fs := rfl

theorem begun_symbols (cs : List Char) (fs : List (Field × List Char)) :
    begun (symbols cs fs) = fs.map Prod.fst := by
  induction fs generalizing cs with
  | nil => simp [symbols, begun_content]
  | cons f fs ih =>
    have hgap : begun (gap f.1 :: symbols f.2 fs) = f.1 :: begun (symbols f.2 fs) := rfl
    rw [symbols_cons, begun_append, begun_content, hgap, ih, List.nil_append, List.map_cons]

theorem written_cons (f : Field) (cs : List Char) (fs : List (Field × List Char)) :
    written ((f, cs) :: fs) = f.lead ++ '"' :: (symbolChars (symbols cs fs) ++ '"' :: closing) := by
  induction fs generalizing f cs with
  | nil => simp [written, quotedChars, symbols, symbolChars_content]
  | cons g fs ih =>
    have hgap : symbolChars (gap g.1 :: symbols g.2 fs) =
        '"' :: (g.1.lead ++ ['"']) ++ symbolChars (symbols g.2 fs) := rfl
    rw [written, ih, symbols_cons, symbolChars_append, symbolChars_content, hgap]
    simp [quotedChars]

theorem exists_symbols (ss : List Symbol) : ∃ cs fs, ss = symbols cs fs := by
  induction ss with
  | nil => exact ⟨[], [], rfl⟩
  | cons x ss ih =>
    obtain ⟨cs, fs, rfl⟩ := ih
    cases x with
    | content c => exact ⟨c :: cs, fs, rfl⟩
    | gap f => exact ⟨[], (f, cs) :: fs, rfl⟩

/-! ## Where delimiters stand -/

theorem head?_symbolChars {ss : List Symbol} {b : Char} (hb : b = '{' ∨ b = '}')
    (h : (symbolChars ss ++ '"' :: closing).head? = some b) : ∃ ts, ss = content b :: ts := by
  have hquote : '"' ≠ b := by rcases hb with rfl | rfl <;> decide
  cases ss with
  | nil => exact absurd (Option.some.inj h) hquote
  | cons x ss =>
    cases x with
    | gap f => exact absurd (Option.some.inj h) hquote
    | content c =>
      have hne : escape c ≠ [] := by
        obtain ⟨x, -, -, hesc, -⟩ | ⟨-, hesc⟩ | ⟨-, hesc⟩ := escape_cases c <;> simp [hesc]
      have hhead : (escape c).head? = some b := by
        obtain ⟨a, as, has⟩ := List.exists_cons_of_ne_nil hne
        rw [← h, symbolChars, List.flatMap_cons, List.append_assoc, chars, has]
        rfl
      exact ⟨ss, by rw [head?_escape hb hhead]⟩

/-- A delimiter is two characters of one field. -/
theorem passes_or_delimiter (x : Symbol) (ss : List Symbol) :
    Passes x.chars (symbolChars ss ++ '"' :: closing) ∨
      (∃ ts, x = content '{' ∧ ss = content '{' :: ts) ∨
      ∃ ts, x = content '}' ∧ ss = content '}' :: ts := by
  cases x with
  | gap f =>
    refine .inl (passes_of_inert ?_ _)
    cases f <;> decide
  | content c =>
    by_cases hopen : c = '{'
    · subst hopen
      by_cases hhead : (symbolChars ss ++ '"' :: closing).head? = some '{'
      · obtain ⟨ts, hts⟩ := head?_symbolChars (.inl rfl) hhead
        exact .inr (.inl ⟨ts, rfl, hts⟩)
      · exact .inl (passes_single (.inr hhead) (.inl (by decide)))
    by_cases hclose : c = '}'
    · subst hclose
      by_cases hhead : (symbolChars ss ++ '"' :: closing).head? = some '}'
      · obtain ⟨ts, hts⟩ := head?_symbolChars (.inr rfl) hhead
        exact .inr (.inr ⟨ts, rfl, hts⟩)
      · exact .inl (passes_single (.inl (by decide)) (.inr hhead))
    · exact .inl (passes_of_inert (inert_escape hopen hclose) _)

/-! ## Filling in -/

/-- What a policy makes of a row of fields: it keeps all, or leaves some out. -/
structure Kept (policy : Policy) (old new : List Field) : Prop where
  sublist : new.Sublist old
  all : policy ≠ .remove → new = old

variable {policy : Policy} {bindings : Bindings}

theorem Kept.refl (fs : List Field) : Kept policy fs fs := ⟨.refl fs, fun _ => rfl⟩

theorem Kept.append {as bs cs ds : List Field} (h : Kept policy as bs) (h' : Kept policy cs ds) :
    Kept policy (as ++ cs) (bs ++ ds) :=
  ⟨h.sublist.append h'.sublist, fun hne => by rw [h.all hne, h'.all hne]⟩

/-- No name holds a quote, and each value stands between quotes as it is. -/
structure Harmless (bindings : Bindings) : Prop where
  name : ∀ {name value}, bindings.get? name = some value → '"' ∉ name.toList
  value : ∀ {name value}, bindings.get? name = some value → ∀ c ∈ value.toList, Unescaped c

theorem begun_of_no_quote {ss : List Symbol} (h : '"' ∉ symbolChars ss) : begun ss = [] := by
  refine List.filterMap_eq_nil_iff.2 fun x hx => ?_
  cases x with
  | content c => rfl
  | gap f =>
    exact absurd (List.mem_flatMap.2 ⟨gap f, hx, List.mem_cons_self⟩) h

/-- What a placeholder becomes is made of symbols too. -/
theorem filled_token (h : Harmless bindings) (policy : Policy) (ss : List Symbol) :
    ∃ ts, (token (symbolChars ss)).filled bindings policy = symbolChars ts ∧
      Kept policy (begun ss) (begun ts) := by
  cases hget : bindings.get? (String.ofList (Text.trim (symbolChars ss))) with
  | some value =>
    have hquote := h.name hget
    rw [String.toList_ofList] at hquote
    have hss : begun ss = [] := begun_of_no_quote fun hmem => hquote (mem_trim hmem (by decide))
    refine ⟨value.toList.map content, ?_, ?_⟩
    · rw [symbolChars_content, flatMap_escape_of_unescaped (h.value hget)]
      simp [filled, hget]
    · rw [hss, begun_content]
      exact .refl []
  | none =>
    by_cases hpolicy : policy = .remove
    · subst hpolicy
      refine ⟨[], ?_, List.nil_sublist _, absurd rfl⟩
      simp only [filled, hget]
      rfl
    · have hkept : (token (symbolChars ss)).filled bindings policy =
          (token (symbolChars ss)).text := by
        cases policy <;> simp [filled, hget] at hpolicy ⊢
      refine ⟨content '{' :: content '{' :: (ss ++ [content '}', content '}']), ?_, ?_⟩
      · rw [hkept, symbolChars_cons, symbolChars_cons, symbolChars_append]
        rfl
      · have hbegun : begun (content '{' :: content '{' :: (ss ++ [content '}', content '}'])) =
            begun ss ++ [] := begun_append ss _
        rw [hbegun, List.append_nil]
        exact .refl _

theorem read_closing (pending : List Char) :
    (Piece.read pending none ('"' :: closing)).flatMap (filled bindings policy) =
      pending.reverse ++ '"' :: closing := by
  have hread : Piece.read pending none ('"' :: closing) =
      flush (('"' :: closing).reverse ++ pending) := rfl
  rw [hread, flatMap_filled_flush]
  simp

theorem read_closing_inside (pending interior : List Char) :
    (Piece.read pending (some interior) ('"' :: closing)).flatMap (filled bindings policy) =
      pending.reverse ++ '{' :: '{' :: (interior.reverse ++ '"' :: closing) := by
  have hread : Piece.read pending (some interior) ('"' :: closing) =
      flush (('"' :: closing).reverse ++ interior ++ '{' :: '{' :: pending) := rfl
  rw [hread, flatMap_filled_flush]
  simp

/-- Reading on from `pending`, and from inside a placeholder if `inner` has come of it, makes of a
row of symbols another one. -/
def Fills (bindings : Bindings) (policy : Policy) (pending : List Char)
    (inner : Option (List Symbol)) (ss : List Symbol) : Prop :=
  ∃ ts, (Piece.read pending (inner.map fun is => (symbolChars is).reverse)
      (symbolChars ss ++ '"' :: closing)).flatMap (filled bindings policy) =
        pending.reverse ++ (symbolChars ts ++ '"' :: closing) ∧
    Kept policy (begun (inner.getD [] ++ ss)) (begun ts)

variable {pending : List Char} {x : Symbol} {is ss : List Symbol}

theorem fills_nil (inner : Option (List Symbol)) : Fills bindings policy pending inner [] := by
  cases inner with
  | none => exact ⟨[], read_closing pending, .refl _⟩
  | some is =>
    refine ⟨content '{' :: content '{' :: is, ?_, ?_⟩
    · rw [Option.map_some]
      refine (read_closing_inside pending _).trans ?_
      rw [List.reverse_reverse, symbolChars_cons, symbolChars_cons]
      rfl
    · rw [Option.getD_some, List.append_nil]
      exact .refl _

theorem Fills.passes
    (hx : Piece.read pending none (x.chars ++ (symbolChars ss ++ '"' :: closing)) =
      Piece.read (x.chars.reverse ++ pending) none (symbolChars ss ++ '"' :: closing))
    (h : Fills bindings policy (x.chars.reverse ++ pending) none ss) :
    Fills bindings policy pending none (x :: ss) := by
  obtain ⟨ts, hts, hkept⟩ := h
  refine ⟨x :: ts, ?_, ?_⟩
  · rw [symbolChars_cons, List.append_assoc, Option.map_none, hx, symbolChars_cons]
    simpa using hts
  · rw [begun_cons x ts, Option.getD_none, List.nil_append, begun_cons x ss]
    exact (Kept.refl (begun [x])).append hkept

theorem Fills.passes_inside (hx : Passes x.chars (symbolChars ss ++ '"' :: closing))
    (h : Fills bindings policy pending (some (is ++ [x])) ss) :
    Fills bindings policy pending (some is) (x :: ss) := by
  obtain ⟨ts, hts, hkept⟩ := h
  refine ⟨ts, ?_, ?_⟩
  · rw [symbolChars_cons, List.append_assoc, Option.map_some, hx.inside, ← hts]
    simp [symbolChars]
  · simpa using hkept

theorem Fills.opens (h : Fills bindings policy pending (some []) ss) :
    Fills bindings policy pending none (content '{' :: content '{' :: ss) := by
  obtain ⟨ts, hts, hkept⟩ := h
  exact ⟨ts, hts, hkept⟩

/-- An opening that meets another one is plain text. -/
theorem Fills.reopens
    (h : Fills bindings policy ((symbolChars is).reverse ++ '{' :: '{' :: pending) (some []) ss) :
    Fills bindings policy pending (some is) (content '{' :: content '{' :: ss) := by
  obtain ⟨ts, hts, hkept⟩ := h
  have hescape : escape '{' = ['{'] := by decide
  refine ⟨content '{' :: content '{' :: (is ++ ts), ?_, ?_⟩
  · have hread : Piece.read pending (some (symbolChars is).reverse)
        (symbolChars (content '{' :: content '{' :: ss) ++ '"' :: closing) =
      Piece.read ((symbolChars is).reverse ++ '{' :: '{' :: pending) (some [])
        (symbolChars ss ++ '"' :: closing) := rfl
    rw [Option.map_some, hread]
    refine hts.trans ?_
    rw [symbolChars_cons, symbolChars_cons, symbolChars_append]
    simp [chars, hescape]
  · have hbegun : begun (content '{' :: content '{' :: (is ++ ts)) = begun is ++ begun ts :=
      begun_append is ts
    rw [hbegun, Option.getD_some, begun_append]
    exact (Kept.refl _).append hkept

theorem Fills.closes (hbindings : Harmless bindings) (h : Fills bindings policy [] none ss) :
    Fills bindings policy pending (some is) (content '}' :: content '}' :: ss) := by
  obtain ⟨ts, hts, hkept⟩ := h
  obtain ⟨us, hus, hkept'⟩ := filled_token hbindings policy is
  refine ⟨us ++ ts, ?_, ?_⟩
  · have hread : Piece.read pending (some (symbolChars is).reverse)
        (symbolChars (content '}' :: content '}' :: ss) ++ '"' :: closing) =
      flush pending ++ token (symbolChars is).reverse.reverse ::
        Piece.read [] none (symbolChars ss ++ '"' :: closing) := rfl
    rw [Option.map_some, hread, List.reverse_reverse, List.flatMap_append, flatMap_filled_flush,
      List.flatMap_cons, hus, symbolChars_append, List.append_assoc]
    exact congrArg (fun cs => pending.reverse ++ (symbolChars us ++ cs)) hts
  · rw [Option.getD_some, begun_append, begun_append]
    exact hkept'.append hkept

theorem fills_of_lt (hbindings : Harmless bindings) (policy : Policy) (n : Nat) :
    ∀ (ss : List Symbol) (pending : List Char) (inner : Option (List Symbol)), ss.length < n →
      Fills bindings policy pending inner ss := by
  induction n with
  | zero => exact fun _ _ _ h => absurd h (Nat.not_lt_zero _)
  | succ n ih =>
    intro ss pending inner hlen
    cases ss with
    | nil => exact fills_nil inner
    | cons x ss =>
      have hss : ss.length < n := Nat.lt_of_succ_lt_succ hlen
      obtain hx | ⟨ts, rfl, rfl⟩ | ⟨ts, rfl, rfl⟩ := passes_or_delimiter x ss
      · cases inner with
        | none => exact .passes (hx.outside pending) (ih _ _ _ hss)
        | some is => exact .passes_inside hx (ih _ _ _ hss)
      · have hts : ts.length < n := Nat.lt_of_succ_lt hss
        cases inner with
        | none => exact .opens (ih _ _ _ hts)
        | some is => exact .reopens (ih _ _ _ hts)
      · have hts : ts.length < n := Nat.lt_of_succ_lt hss
        cases inner with
        | none => exact .passes (read_outside (.inl (by decide))) (ih _ _ _ hss)
        | some is => exact .closes hbindings (ih _ _ _ hts)

/-- Nothing before the first value is taken for a delimiter. -/
theorem read_render (d : Descriptor) :
    Piece.read [] none d.render.toList =
      Piece.read ((Field.name.lead ++ ['"']).reverse ++ []) none
        (symbolChars (symbols d.name.toList d.fields.tail) ++ '"' :: closing) := by
  have hlead : inert (Field.name.lead ++ ['"']) := by decide
  have hrow : written d.fields =
      (Field.name.lead ++ ['"']) ++ (symbolChars (symbols d.name.toList d.fields.tail) ++
        '"' :: closing) := by
    rw [List.append_assoc]
    exact written_cons _ _ _
  rw [toList_render, hrow, (passes_of_inert hlead _).outside]

/-- Filling in makes a row of fields of a descriptor. -/
theorem exists_written (hbindings : Harmless bindings) {d : Descriptor} {text : String}
    (h : substitute d.render bindings policy = .ok text) :
    ∃ cs fs, text.toList = written ((.name, cs) :: fs) ∧
      Kept policy [.description, .version, .author, .email] (fs.map Prod.fst) := by
  have htext := toList_of_substitute h
  obtain ⟨ts, hts, hkept⟩ := fills_of_lt hbindings policy _
    (symbols d.name.toList d.fields.tail) ((Field.name.lead ++ ['"']).reverse ++ []) none
    (Nat.lt_succ_self _)
  obtain ⟨cs, fs, rfl⟩ := exists_symbols ts
  refine ⟨cs, fs, ?_, ?_⟩
  · rw [htext, pieces, read_render]
    refine hts.trans ?_
    rw [written_cons]
    simp
  · rw [Option.getD_none, List.nil_append, begun_symbols, begun_symbols] at hkept
    exact hkept

/-- What comes out is read as the old descriptor only if it is the old text. -/
theorem ofBytes_filled_iff (hbindings : Harmless bindings) {d : Descriptor} {text : String}
    (h : substitute d.render bindings policy = .ok text) :
    ofBytes text.toUTF8 = .ok d ↔ text = d.render := by
  constructor
  · intro hread
    obtain ⟨cs, fs, htext, hkept⟩ := exists_written hbindings h
    rw [← String.toList_inj, toList_render, htext,
      eq_fields_of_ofBytes htext hkept.sublist hread]
  · rintro rfl
    exact ofBytes_render d

end Stencil.Descriptor
