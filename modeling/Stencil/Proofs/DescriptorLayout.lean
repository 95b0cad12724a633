import Stencil.Descriptor
import Stencil.Proofs.ObjectRows

/-!
Descriptors written in any layout.

Main statement: a text with every field once is read as the descriptor that the fields make up,
however its fields are ordered and spelled and whatever else stands among them, and one in which a
field is missing or comes twice is no descriptor (`ofBytes_layout`).
-/

namespace Stencil

open Json

/-! ## The author -/

namespace Author

/-- What a member of an author says. -/
inductive Entry
  | name (v : String)
  | email (v : String)
  | other

namespace Entry

def name? : Entry → Option String
  | name v => some v
  | _ => none

def email? : Entry → Option String
  | email v => some v
  | _ => none

inductive Written : Entry → List Char → Prop
  | name {v : String} {value cs : List Char} : Quoted v value → Keyed "name" value cs →
      Written (.name v) cs
  | email {v : String} {value cs : List Char} : Quoted v value → Keyed "email" value cs →
      Written (.email v) cs
  | other {key : String} {value cs : List Char} : key ∉ ["name", "email"] →
      Derives .value value → Keyed key value cs → Written .other cs

end Entry

/-- The two ways to write an author. -/
inductive Form
  | object (entries : List Entry)
  | array (name email : String)

namespace Form

inductive Written : Form → List Char → Prop
  | object {entries : List Entry} {cs : List Char} : Object Entry.Written entries cs →
      Written (.object entries) cs
  | array {name email : String} {gap₁ gap₂ gap₃ gap₄ cs₁ cs₂ : List Char} :
      Gap gap₁ → Quoted name cs₁ → Gap gap₂ → Gap gap₃ → Quoted email cs₂ → Gap gap₄ →
      Written (.array name email)
        ('[' :: (gap₁ ++ (cs₁ ++ (gap₂ ++ ',' :: (gap₃ ++ (cs₂ ++ (gap₄ ++ [']'])))))))

/-- Every field comes once, with the value that the author has. -/
def Means : Form → Author → Prop
  | object entries, a =>
    entries.filterMap Entry.name? = [a.name] ∧ entries.filterMap Entry.email? = [a.email]
  | array name email, a => a = ⟨name, email⟩

/-- No field is missing, and none comes twice. -/
def Complete : Form → Prop
  | object entries =>
    (entries.filterMap Entry.name?).length = 1 ∧ (entries.filterMap Entry.email?).length = 1
  | array _ _ => True

theorem complete_iff (form : Form) : form.Complete ↔ ∃ a, form.Means a := by
  cases form with
  | object entries =>
    simp only [Complete, Means, List.length_eq_one_iff]
    constructor
    · rintro ⟨⟨name, hname⟩, email, hemail⟩
      exact ⟨⟨name, email⟩, hname, hemail⟩
    · rintro ⟨a, hname, hemail⟩
      exact ⟨⟨_, hname⟩, _, hemail⟩
  | array name email => simp [Complete, Means]

end Form

/-- What reading a member does. -/
def step (s : Found) : Entry → Except Fault Found
  | .name v => if s.name.isSome then .error .mismatched else .ok { s with name := some v }
  | .email v => if s.email.isSome then .error .mismatched else .ok { s with email := some v }
  | .other => .ok s

theorem reads_entry {entry : Entry} {cs : List Char} (h : entry.Written cs) :
    Reads member step entry cs := by
  cases h with
  | @name v _ _ hv hkeyed =>
    exact .of_known hkeyed Found.name (fun s v => { s with name := some v }) readText (.ok v)
      (fun _ _ => rfl) (fun _ => rfl) fun _ bs hgap => readText_gap hgap hv bs
  | @email v _ _ hv hkeyed =>
    exact .of_known hkeyed Found.email (fun s v => { s with email := some v }) readText (.ok v)
      (fun _ _ => rfl) (fun _ => rfl) fun _ bs hgap => readText_gap hgap hv bs
  | other hkey hvalue hkeyed =>
    refine .of_unknown hkeyed hvalue (fun s bs => ?_) fun _ => rfl
    simp only [List.mem_cons, List.not_mem_nil, or_false, not_or] at hkey
    rw [member]
    · cases skipMemberValue bs <;> rfl
    · exact hkey.1
    · exact hkey.2

theorem step_error (s : Found) (entry : Entry) (e : Fault) (h : step s entry = .error e) :
    e = .mismatched := by
  cases entry with
  | name v => cases hs : s.name <;> simp_all [step]
  | email v => cases hs : s.email <;> simp_all [step]
  | other => simp [step] at h

/-- The members found are those that were there, none of them twice. -/
theorem foldlM_step_iff {entries : List Entry} {s s' : Found} :
    entries.foldlM step s = .ok s' ↔
      s'.name.toList = s.name.toList ++ entries.filterMap Entry.name? ∧
        s'.email.toList = s.email.toList ++ entries.filterMap Entry.email? := by
  induction entries generalizing s with
  | nil =>
    obtain ⟨name, email⟩ := s
    obtain ⟨name', email'⟩ := s'
    simp [pure, Except.pure, toList_inj, eq_comm]
  | cons entry entries ih =>
    rw [List.foldlM_cons]
    cases entry with
    | name v =>
      cases hs : s.name <;>
        simp [step, hs, ih, bind, Except.bind, List.filterMap_cons, Entry.name?, Entry.email?,
          toList_ne]
    | email v =>
      cases hs : s.email <;>
        simp [step, hs, ih, bind, Except.bind, List.filterMap_cons, Entry.name?, Entry.email?,
          toList_ne]
    | other => exact ih

theorem Found.complete_iff {s : Found} {a : Author} :
    s.complete = .ok a ↔ s = ⟨some a.name, some a.email⟩ := by
  rcases s with ⟨_ | name, _ | email⟩
  · simp [Found.complete]
  · simp [Found.complete]
  · simp [Found.complete]
  · rcases a with ⟨name', email'⟩
    simp [Found.complete]

theorem Found.complete_error (s : Found) (e : Fault) (h : s.complete = .error e) :
    e = .mismatched := by
  rcases s with ⟨_ | name, _ | email⟩ <;> simp_all [Found.complete]

namespace Form

/-- What reading an author ends with. -/
def value : Form → Except Fault Author
  | object entries => (entries.foldlM step {}).bind Found.complete
  | array name email => .ok ⟨name, email⟩

theorem value_eq_ok_iff {form : Form} {a : Author} : form.value = .ok a ↔ form.Means a := by
  cases form with
  | object entries =>
    rw [value, Means, bind_eq_ok_iff fun _ => Found.complete_iff, foldlM_step_iff]
    simp [eq_comm]
  | array name email =>
    rw [value, Means]
    simp [eq_comm]

theorem value_error (form : Form) (e : Fault) (h : form.value = .error e) : e = .mismatched := by
  cases form with
  | object entries =>
    exact bind_error (foldlM_error step_error entries {}) Found.complete_error h
  | array name email => cases h

end Form

/-- However an author is written, reading it goes on behind it. -/
theorem parse_form {form : Form} {gap cs : List Char} (hgap : Gap gap) (h : form.Written cs)
    (bs : Bytes) : parse (utf8 (gap ++ cs) ++ bs) = form.value.map (·, bs) := by
  cases h with
  | @object entries cs hobject =>
    obtain ⟨cs, rfl, hread⟩ := readMembers_object (fun _ _ => reads_entry) hobject {} bs
    rw [utf8_append, utf8_brace, List.append_assoc, List.cons_append, parse,
      skipBlanks_gap_cons hgap (by decide)]
    simp only [hread]
    exact map_bind_map _ _ bs
  | array hgap₁ hname hgap₂ hgap₃ hemail hgap₄ =>
    rw [utf8_append, utf8_bracket, List.append_assoc, List.cons_append, parse,
      skipBlanks_gap_cons hgap (by decide)]
    simp only [nextItem_first hgap₁ hname.begins, nextItem_next hgap₂ hgap₃ hemail.begins,
      readText_eq hname, readText_eq hemail, closeArray_eq hgap₄, bind, Except.bind]
    rfl

theorem Form.Written.begins {form : Form} {cs : List Char} (h : form.Written cs) : Begins cs := by
  cases h with
  | object hobject => cases hobject <;> exact begins_open (by decide) _
  | array => exact begins_open (by decide) _

end Author

/-! ## The descriptor -/

namespace Descriptor

/-- What a member of a descriptor says. -/
inductive Entry
  | name (v : String)
  | description (v : String)
  | version (v : String)
  | author (form : Author.Form)
  | other

namespace Entry

def name? : Entry → Option String
  | name v => some v
  | _ => none

def description? : Entry → Option String
  | description v => some v
  | _ => none

def version? : Entry → Option String
  | version v => some v
  | _ => none

def author? : Entry → Option Author.Form
  | author form => some form
  | _ => none

inductive Written : Entry → List Char → Prop
  | name {v : String} {value cs : List Char} : Quoted v value → Keyed "name" value cs →
      Written (.name v) cs
  | description {v : String} {value cs : List Char} : Quoted v value →
      Keyed "description" value cs → Written (.description v) cs
  | version {v : String} {value cs : List Char} : Quoted v value → Keyed "version" value cs →
      Written (.version v) cs
  | author {form : Author.Form} {value cs : List Char} : form.Written value →
      Keyed "author" value cs → Written (.author form) cs
  | other {key : String} {value cs : List Char} :
      key ∉ ["name", "description", "version", "author"] → Derives .value value →
      Keyed key value cs → Written .other cs

end Entry

/-- The two ways to write a descriptor. -/
inductive Form
  | object (entries : List Entry)
  | array (name description version : String) (author : Author.Form)

namespace Form

inductive Written : Form → List Char → Prop
  | object {entries : List Entry} {cs : List Char} : Object Entry.Written entries cs →
      Written (.object entries) cs
  | array {name description version : String} {author : Author.Form}
      {gap₁ gap₂ gap₃ gap₄ gap₅ gap₆ gap₇ gap₈ cs₁ cs₂ cs₃ cs₄ : List Char} :
      Gap gap₁ → Quoted name cs₁ → Gap gap₂ → Gap gap₃ → Quoted description cs₂ → Gap gap₄ →
      Gap gap₅ → Quoted version cs₃ → Gap gap₆ → Gap gap₇ → author.Written cs₄ → Gap gap₈ →
      Written (.array name description version author)
        ('[' :: (gap₁ ++ (cs₁ ++ (gap₂ ++ ',' :: (gap₃ ++ (cs₂ ++ (gap₄ ++ ',' ::
          (gap₅ ++ (cs₃ ++ (gap₆ ++ ',' :: (gap₇ ++ (cs₄ ++ (gap₈ ++ [']'])))))))))))))

/-- Every field comes once, with the value that the descriptor has. -/
def Means : Form → Descriptor → Prop
  | object entries, d =>
    entries.filterMap Entry.name? = [d.name] ∧
      entries.filterMap Entry.description? = [d.description] ∧
      entries.filterMap Entry.version? = [d.version] ∧
      ∃ form, entries.filterMap Entry.author? = [form] ∧ form.Means d.author
  | array name description version author, d =>
    d.name = name ∧ d.description = description ∧ d.version = version ∧ author.Means d.author

/-- No field is missing, and none comes twice, neither here nor in an author. -/
def Complete : Form → Prop
  | object entries =>
    (entries.filterMap Entry.name?).length = 1 ∧
      (entries.filterMap Entry.description?).length = 1 ∧
      (entries.filterMap Entry.version?).length = 1 ∧
      (entries.filterMap Entry.author?).length = 1 ∧
      ∀ form ∈ entries.filterMap Entry.author?, form.Complete
  | array _ _ _ author => author.Complete

theorem complete_iff (form : Form) : form.Complete ↔ ∃ d, form.Means d := by
  cases form with
  | object entries =>
    simp only [Complete, Means, List.length_eq_one_iff]
    constructor
    · rintro ⟨⟨name, hname⟩, ⟨description, hdescription⟩, ⟨version, hversion⟩, ⟨form, hform⟩, hall⟩
      obtain ⟨a, ha⟩ := (Author.Form.complete_iff form).1 (hall form (by simp [hform]))
      exact ⟨⟨name, description, version, a⟩, hname, hdescription, hversion, form, hform, ha⟩
    · rintro ⟨d, hname, hdescription, hversion, form, hform, ha⟩
      refine ⟨⟨_, hname⟩, ⟨_, hdescription⟩, ⟨_, hversion⟩, ⟨form, hform⟩, ?_⟩
      rw [hform]
      exact List.forall_mem_singleton.2 ((Author.Form.complete_iff form).2 ⟨_, ha⟩)
  | array name description version author =>
    rw [Complete, Author.Form.complete_iff]
    constructor
    · rintro ⟨a, ha⟩
      exact ⟨⟨name, description, version, a⟩, rfl, rfl, rfl, ha⟩
    · rintro ⟨d, -, -, -, ha⟩
      exact ⟨d.author, ha⟩

end Form

/-- What reading a member does. -/
def step (s : Found) : Entry → Except Fault Found
  | .name v => if s.name.isSome then .error .mismatched else .ok { s with name := some v }
  | .description v =>
    if s.description.isSome then .error .mismatched else .ok { s with description := some v }
  | .version v => if s.version.isSome then .error .mismatched else .ok { s with version := some v }
  | .author form =>
    if s.author.isSome then .error .mismatched
    else form.value.map fun a => { s with author := some a }
  | .other => .ok s

theorem reads_entry {entry : Entry} {cs : List Char} (h : entry.Written cs) :
    Reads member step entry cs := by
  cases h with
  | @name v _ _ hv hkeyed =>
    exact .of_known hkeyed Found.name (fun s v => { s with name := some v }) readText (.ok v)
      (fun _ _ => rfl) (fun _ => rfl) fun _ bs hgap => readText_gap hgap hv bs
  | @description v _ _ hv hkeyed =>
    exact .of_known hkeyed Found.description (fun s v => { s with description := some v }) readText
      (.ok v) (fun _ _ => rfl) (fun _ => rfl) fun _ bs hgap => readText_gap hgap hv bs
  | @version v _ _ hv hkeyed =>
    exact .of_known hkeyed Found.version (fun s v => { s with version := some v }) readText (.ok v)
      (fun _ _ => rfl) (fun _ => rfl) fun _ bs hgap => readText_gap hgap hv bs
  | @author form _ _ hform hkeyed =>
    exact .of_known hkeyed Found.author (fun s a => { s with author := some a }) Author.parse
      form.value (fun _ _ => rfl) (fun _ => rfl) fun _ bs hgap => Author.parse_form hgap hform bs
  | other hkey hvalue hkeyed =>
    refine .of_unknown hkeyed hvalue (fun s bs => ?_) fun _ => rfl
    simp only [List.mem_cons, List.not_mem_nil, or_false, not_or] at hkey
    obtain ⟨hname, hdescription, hversion, hauthor⟩ := hkey
    rw [member]
    · cases skipMemberValue bs <;> rfl
    · exact hname
    · exact hdescription
    · exact hversion
    · exact hauthor

theorem step_error (s : Found) (entry : Entry) (e : Fault) (h : step s entry = .error e) :
    e = .mismatched := by
  cases entry with
  | name v => cases hs : s.name <;> simp_all [step]
  | description v => cases hs : s.description <;> simp_all [step]
  | version v => cases hs : s.version <;> simp_all [step]
  | author form =>
    cases hs : s.author with
    | some a => simp_all [step]
    | none =>
      cases hvalue : form.value with
      | error e' =>
        rw [step, hs, hvalue] at h
        cases h
        exact form.value_error _ hvalue
      | ok a => simp_all [step, Except.map]
  | other => simp [step] at h

/-- The members found are those that were there, none of them twice, and the authors found are
what reading them ended with. -/
theorem foldlM_step_iff {entries : List Entry} {s s' : Found} :
    entries.foldlM step s = .ok s' ↔
      s'.name.toList = s.name.toList ++ entries.filterMap Entry.name? ∧
        s'.description.toList = s.description.toList ++ entries.filterMap Entry.description? ∧
        s'.version.toList = s.version.toList ++ entries.filterMap Entry.version? ∧
        s'.author.toList.map Except.ok = s.author.toList.map Except.ok ++
          (entries.filterMap Entry.author?).map Author.Form.value := by
  have hinj : ∀ found found' : Option Author,
      found.toList.map (Except.ok : Author → Except Fault Author) = found'.toList.map .ok ↔
        found = found' := by
    intro found found'
    rw [← toList_inj]
    exact List.map_inj_right fun _ _ h => Except.ok.inj h
  induction entries generalizing s with
  | nil =>
    obtain ⟨name, description, version, author⟩ := s
    obtain ⟨name', description', version', author'⟩ := s'
    simp [pure, Except.pure, toList_inj, hinj, eq_comm]
  | cons entry entries ih =>
    rw [List.foldlM_cons]
    cases entry with
    | name v =>
      cases hs : s.name <;>
        simp [step, hs, ih, bind, Except.bind, List.filterMap_cons, Entry.name?,
          Entry.description?, Entry.version?, Entry.author?, toList_ne]
    | description v =>
      cases hs : s.description <;>
        simp [step, hs, ih, bind, Except.bind, List.filterMap_cons, Entry.name?,
          Entry.description?, Entry.version?, Entry.author?, toList_ne]
    | version v =>
      cases hs : s.version <;>
        simp [step, hs, ih, bind, Except.bind, List.filterMap_cons, Entry.name?,
          Entry.description?, Entry.version?, Entry.author?, toList_ne]
    | author form =>
      cases hs : s.author with
      | some a =>
        have hne : ∀ (found : Option Author) (x : Except Fault Author) xs,
            found.toList.map Except.ok ≠ .ok a :: x :: xs := by
          rintro (_ | _) x xs <;> simp
        simp [step, hs, bind, Except.bind, List.filterMap_cons, Entry.author?, hne]
      | none =>
        cases hvalue : form.value with
        | error e =>
          have hne : ∀ (found : Option Author) xs,
              found.toList.map Except.ok ≠ (.error e : Except Fault Author) :: xs := by
            rintro (_ | _) xs <;> simp
          simp [step, hs, hvalue, bind, Except.bind, Except.map, List.filterMap_cons,
            Entry.author?, hne]
        | ok a =>
          simp [step, hs, hvalue, ih, bind, Except.bind, Except.map, List.filterMap_cons,
            Entry.name?, Entry.description?, Entry.version?, Entry.author?]
    | other => exact ih

theorem Found.complete_iff {s : Found} {d : Descriptor} :
    s.complete = .ok d ↔ s = ⟨some d.name, some d.description, some d.version, some d.author⟩ := by
  rcases d with ⟨name', description', version', author'⟩
  rcases s with ⟨_ | name, _ | description, _ | version, _ | author⟩ <;> simp [Found.complete]

theorem Found.complete_error (s : Found) (e : Fault) (h : s.complete = .error e) :
    e = .mismatched := by
  rcases s with ⟨_ | name, _ | description, _ | version, _ | author⟩ <;> simp_all [Found.complete]

namespace Form

/-- What reading a descriptor ends with. -/
def value : Form → Except Fault Descriptor
  | object entries => (entries.foldlM step {}).bind Found.complete
  | array name description version author => author.value.map (⟨name, description, version, ·⟩)

theorem value_eq_ok_iff {form : Form} {d : Descriptor} : form.value = .ok d ↔ form.Means d := by
  cases form with
  | object entries =>
    rw [value, Means, bind_eq_ok_iff fun _ => Found.complete_iff, foldlM_step_iff]
    simp [eq_comm, ← Author.Form.value_eq_ok_iff]
  | array name description version author =>
    rw [value, Means, ← Author.Form.value_eq_ok_iff]
    rcases d with ⟨name', description', version', author'⟩
    cases author.value <;> simp [Except.map, eq_comm]

theorem value_error (form : Form) (e : Fault) (h : form.value = .error e) : e = .mismatched := by
  cases form with
  | object entries => exact bind_error (foldlM_error step_error entries {}) Found.complete_error h
  | array name description version author =>
    rw [value] at h
    cases hvalue : author.value with
    | error e' =>
      rw [hvalue] at h
      cases h
      exact author.value_error _ hvalue
    | ok a =>
      rw [hvalue] at h
      cases h

theorem value_of_not_complete {form : Form} (h : ¬ form.Complete) :
    form.value = .error .mismatched := by
  cases hvalue : form.value with
  | error e => rw [form.value_error e hvalue]
  | ok d => exact absurd (form.complete_iff.2 ⟨d, value_eq_ok_iff.1 hvalue⟩) h

end Form

/-- However a descriptor is written, reading it goes on behind it. -/
theorem parse_form {form : Form} {gap cs : List Char} (hgap : Gap gap) (h : form.Written cs)
    (bs : Bytes) : parse (utf8 (gap ++ cs) ++ bs) = form.value.map (·, bs) := by
  cases h with
  | @object entries cs hobject =>
    obtain ⟨cs, rfl, hread⟩ := readMembers_object (fun _ _ => reads_entry) hobject {} bs
    rw [utf8_append, utf8_brace, List.append_assoc, List.cons_append, parse,
      skipBlanks_gap_cons hgap (by decide)]
    simp only [hread]
    exact map_bind_map _ _ bs
  | @array _ _ _ author _ _ _ _ _ _ _ _ _ _ _ cs₄ hgap₁ hname hgap₂ hgap₃ hdescription hgap₄
      hgap₅ hversion hgap₆ hgap₇ hauthor hgap₈ =>
    have hread : ∀ bs, Author.parse (utf8 cs₄ ++ bs) = author.value.map (·, bs) :=
      @Author.parse_form _ [] _ gap_nil hauthor
    rw [utf8_append, utf8_bracket, List.append_assoc, List.cons_append, parse,
      skipBlanks_gap_cons hgap (by decide)]
    simp only [nextItem_first hgap₁ hname.begins, nextItem_next hgap₂ hgap₃ hdescription.begins,
      nextItem_next hgap₄ hgap₅ hversion.begins, nextItem_next hgap₆ hgap₇ hauthor.begins,
      readText_eq hname, readText_eq hdescription, readText_eq hversion, hread, bind, Except.bind]
    rw [Form.value]
    cases author.value with
    | error e => rfl
    | ok a =>
      simp only [Except.map, closeArray_eq hgap₈]
      rfl

/-- A text is read as a descriptor exactly if every field stands in it once, with the value that
the descriptor has, and is no descriptor if a field is missing or comes twice: the order and the
spelling of the fields, what else stands among them and the white space do not matter. -/
theorem ofBytes_layout {form : Form} {text : String} {gap cs gap' : List Char} (hgap : Gap gap)
    (hform : form.Written cs) (hgap' : Gap gap') (htext : text.toList = gap ++ (cs ++ gap')) :
    (∀ d, ofBytes text.toUTF8 = .ok d ↔ form.Means d) ∧
      (¬ form.Complete → ofBytes text.toUTF8 = .error .mismatched) := by
  have hclose : closeText (utf8 gap') = .ok () := by
    have hblanks := skipBlanks_gap hgap' []
    rw [List.append_nil] at hblanks
    rw [closeText, hblanks]
    rfl
  have hread : ofBytes text.toUTF8 = form.value := by
    rw [ofBytes, toUTF8_eq_utf8, htext, ← List.append_assoc, utf8_append, parse_form hgap hform]
    cases form.value with
    | error e => rfl
    | ok d =>
      simp only [Except.map, bind, Except.bind, hclose]
      rfl
  exact ⟨fun d => hread ▸ Form.value_eq_ok_iff, fun h => hread.trans (Form.value_of_not_complete h)⟩

/-- The fields in another order and an unknown one among them, some of their characters escaped. -/
def sampleForm : Form :=
  .object [.author (.object [.email "a@b", .name "Ann"]), .other, .version "1",
    .description "é/", .name "😀"]

def sampleText : String :=
  " \x7b\"author\": \x7b\"email\":\"a@b\",\"name\":\"Ann\"\x7d,\"x\":[1,\x7b\"y\":null\x7d],"
    ++ "\"version\":\"1\",\"description\":\"\\u00e9\\/\",\"name\":\"\\ud83d\\uDE00\"\x7d\n"

theorem keyed_self (key : String) {gap value : List Char} (h : key.toList.all fun c => Unescaped c)
    (hgap : Gap gap) :
    Keyed key value (('"' :: (key.toList ++ ['"'])) ++ ':' :: (gap ++ value)) :=
  ⟨_, [], gap, quoted_self h, gap_nil, hgap, rfl⟩

theorem written_sampleText :
    ∃ cs, sampleForm.Written cs ∧ sampleText.toList = [' '] ++ (cs ++ ['\n']) := by
  have hsurrogates : Spelling '😀' "\\ud83d\\uDE00".toList :=
    @Spelling.pair _ 0xd83d 0xde00 "d83d".toList "DE00".toList rfl rfl
      ⟨[13, 8, 3, 13], .cons (.inl rfl) (.cons (.inl rfl) (.cons (.inl rfl) (.cons (.inl rfl) .nil))),
        by decide⟩
      ⟨[13, 14, 0, 0], .cons (.inr rfl) (.cons (.inr rfl) (.cons (.inl rfl) (.cons (.inl rfl) .nil))),
        by decide⟩ (by decide) (by decide) (by decide)
  have hunit : Spelling 'é' "\\u00e9".toList :=
    @Spelling.unit _ "00e9".toList rfl ⟨[0, 0, 14, 9],
      .cons (.inl rfl) (.cons (.inl rfl) (.cons (.inl rfl) (.cons (.inl rfl) .nil))), by decide⟩
  have hblank : Gap [' '] := by simp [Gap]
  have hemail := Author.Entry.Written.email (quoted_self (v := "a@b") (by decide))
    (keyed_self _ (by decide) gap_nil)
  have hann := Author.Entry.Written.name (quoted_self (v := "Ann") (by decide))
    (keyed_self _ (by decide) gap_nil)
  have hauthor := Entry.Written.author (.object (.row (.next gap_nil hemail gap_nil
    (.last gap_nil hann gap_nil)))) (keyed_self _ (by decide) hblank)
  have hvalue := Derives.array (.item gap_nil (.number (@Number.mk [] ['1'] [] [] (by decide)
    (.digits ⟨by decide, List.all_eq_true.1 (by decide)⟩ (by decide)) .none .none)) gap_nil
    (.lastItem gap_nil (.object (.lastMember gap_nil (@StringBody.plain 'y' [] (by decide) .nil)
      gap_nil gap_nil (@Derives.word "null" (by decide)) gap_nil)) gap_nil))
  have hother := Entry.Written.other (by decide) hvalue (keyed_self "x" (by decide) gap_nil)
  have hversion := Entry.Written.version (quoted_self (v := "1") (by decide))
    (keyed_self _ (by decide) gap_nil)
  have hdescription := Entry.Written.description (v := "é/")
    ⟨_, Spelled.cons hunit (Spelled.cons (.letter (e := '/') (by decide)) .nil), rfl⟩
    (keyed_self _ (by decide) gap_nil)
  have hname := Entry.Written.name (v := "😀") ⟨_, Spelled.cons hsurrogates .nil, rfl⟩
    (keyed_self _ (by decide) gap_nil)
  exact ⟨_, .object (.row (.next gap_nil hauthor gap_nil (.next gap_nil hother gap_nil
    (.next gap_nil hversion gap_nil (.next gap_nil hdescription gap_nil
      (.last gap_nil hname gap_nil)))))), by decide +kernel⟩

/-- One field twice, and the others missing. -/
def refusedText : String := "\x7b\"name\":\"n\",\"name\":\"n\"\x7d"

theorem ofBytes_layout_sample :
    ofBytes sampleText.toUTF8 = .ok ⟨"😀", "é/", "1", ⟨"Ann", "a@b"⟩⟩ ∧
      ofBytes refusedText.toUTF8 = .error .mismatched := by
  obtain ⟨cs, hwritten, htext⟩ := written_sampleText
  have hmember := Entry.Written.name (quoted_self (v := "n") (by decide))
    (keyed_self _ (by decide) gap_nil)
  have hrefused : (Form.object [.name "n", .name "n"]).Written refusedText.toList :=
    .object (.row (.next gap_nil hmember gap_nil (.last gap_nil hmember gap_nil)))
  constructor
  · exact ((ofBytes_layout (by simp [Gap]) hwritten (by simp [Gap]) htext).1 _).2
      ⟨rfl, rfl, rfl, _, rfl, rfl, rfl⟩
  · refine (ofBytes_layout gap_nil hrefused gap_nil (List.append_nil _).symm).2 ?_
    simp [Form.Complete, Entry.name?]

end Descriptor

end Stencil
