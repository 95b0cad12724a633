import Stencil.Wizard
import Stencil.Proofs.DashedName
import Stencil.Proofs.Endings

/-!
How the interview goes.

Names are turned down until one is acceptable, and after that three questions are left. A step
turns down one answer (`askName_turnsDown`), and from it a run turns down any number of them
(`askName_after`). Main statement: the first acceptable answer decides what is asked, what is
rejected and how the interview ends, with the request or for want of answers (`collect_outcome`).
-/

namespace Stencil

open Run

namespace Wizard

/-! ## What passes between the wizard and the user -/

/-- The text of the answer has a dash-case form, and the destination of that name is free. -/
def Acceptable (fs : FileSystem) (base : Path) (answer : String) : Prop :=
  dashCase (Text.trimmed answer) ≠ "" ∧ ¬ fs.occupied (destinationOf base (Text.trimmed answer))

instance (fs : FileSystem) (base : Path) (answer : String) :
    Decidable (Acceptable fs base answer) := inferInstanceAs (Decidable (_ ∧ _))

/-- What is said of an answer that is turned down: it is blank, it has no letter or digit, or its
directory is taken. -/
def objection (answer : String) : String :=
  let name := Text.trimmed answer
  if name = "" then missingName
  else if name.toList.all (!Text.isAlphanumeric ·) then unusableName name
  else takenName name

/-- What is logged of such an answer. -/
def complaint (base : Path) (answer : String) : List Event :=
  if dashCase (Text.trimmed answer) = "" then []
  else [.destinationTaken (destinationOf base (Text.trimmed answer))]

def isAsk : Prompt → Bool
  | .ask _ _ => true
  | .reject _ => false

/-- An answer is asked for and turned down. -/
def rejection (answer : String) : List Prompt :=
  [.ask nameQuestion none, .reject (objection answer)]

/-- The default that a question offers. -/
def offered (default : String) : Option String := if default = "" then none else some default

/-- The four questions of an interview in which the first name is acceptable. -/
def questions (defaults : Defaults) : List Prompt :=
  [.ask nameQuestion none,
    .ask versionQuestion (offered defaults.version),
    .ask authorQuestion (offered defaults.author),
    .ask emailQuestion (offered defaults.email)]

/-- What an answer stands for: its text, or the default where it is blank. -/
def orDefault (default answer : String) : String :=
  if Text.trimmed answer = "" then default else Text.trimmed answer

theorem isAvailable_iff {fs : FileSystem} {base : Path} {answer : String} :
    fs.isAvailable base (Text.trimmed answer) ↔ Acceptable fs base answer := by
  simp [FileSystem.isAvailable, Acceptable]

variable {w : World} {base : Path}

/-! ## One question -/

theorem reject_eq (reason : String) :
    reject reason w = .ok () { w with prompts := w.prompts ++ [.reject reason] } := rfl

/-- The question has been put, and one answer has been taken if there is one. -/
def asked (prompt : Prompt) (w : World) : World :=
  { w with answers := w.answers.tail, prompts := w.prompts ++ [prompt] }

theorem ask_of_nil (h : w.answers = []) (question : String) (offered : Option String) :
    ask question offered w = .error .cancelled (asked (.ask question offered) w) := by
  obtain ⟨files, log, answers, prompts, printed⟩ := w
  obtain rfl : answers = [] := h
  rfl

theorem ask_of_cons {answer : String} {rest : List String} (h : w.answers = answer :: rest)
    (question : String) (offered : Option String) :
    ask question offered w = .ok answer (asked (.ask question offered) w) := by
  obtain ⟨files, log, answers, prompts, printed⟩ := w
  obtain rfl : answers = answer :: rest := h
  rfl

theorem askOr_of_nil (h : w.answers = []) (question default : String) :
    askOr question default w =
      .error .cancelled (asked (.ask question (offered default)) w) := by
  rw [askOr, bind_of_error (ask_of_nil h _ _), offered]

theorem askOr_of_cons {answer : String} {rest : List String} (h : w.answers = answer :: rest)
    (question default : String) :
    askOr question default w =
      .ok (orDefault default answer) (asked (.ask question (offered default)) w) := by
  rw [askOr, bind_of_ok (ask_of_cons h _ _), offered]
  rfl

/-! ## The name -/

/-- The world after an answer has been turned down. -/
def turnDown (base : Path) (w : World) (answer : String) : World :=
  { w with
    answers := w.answers.tail
    prompts := w.prompts ++ rejection answer
    log := w.log ++ complaint base answer }

/-- A name that is not acceptable is turned down, and the next one is asked for. -/
theorem askName_turnsDown {answer : String} {rest : List String} (h : w.answers = answer :: rest)
    (hnot : ¬ Acceptable w.files base answer) (n : Nat) :
    askName base (n + 1) w = askName base n (turnDown base w answer) := by
  rw [askName, bind_of_ok (ask_of_cons h _ _)]
  by_cases hblank : Text.trimmed answer = ""
  · have hdash : dashCase "" = "" := rfl
    simp only [if_pos hblank]
    rw [bind_of_ok (reject_eq _)]
    simp [turnDown, asked, rejection, objection, complaint, hblank, hdash]
  · by_cases hdash : dashCase (Text.trimmed answer) = ""
    · have hnone : (Text.trimmed answer).toList.all (!Text.isAlphanumeric ·) := by
        simpa using dashCase_eq_empty_iff.1 hdash
      simp only [if_neg hblank, if_pos hdash]
      rw [bind_of_ok (reject_eq _)]
      simp only [turnDown, asked, rejection, objection, complaint, if_neg hblank, if_pos hnone,
        if_pos hdash, List.append_assoc, List.append_nil, List.singleton_append]
    · have hsome : ¬ (Text.trimmed answer).toList.all (!Text.isAlphanumeric ·) := by
        simpa using mt dashCase_eq_empty_iff.2 hdash
      have htaken : ¬ (asked (.ask nameQuestion none) w).files.isAvailable base
          (Text.trimmed answer) := mt isAvailable_iff.1 hnot
      simp only [if_neg hblank, if_neg hdash]
      rw [bind_of_ok get_eq, if_neg htaken, bind_of_ok (emit_eq _), bind_of_ok (reject_eq _)]
      simp only [turnDown, asked, rejection, objection, complaint, if_neg hblank, if_neg hsome,
        if_neg hdash, List.append_assoc, List.singleton_append]

theorem askName_accepts {answer : String} {rest : List String} (h : w.answers = answer :: rest)
    (hok : Acceptable w.files base answer) (n : Nat) :
    askName base (n + 1) w = .ok (Text.trimmed answer) (asked (.ask nameQuestion none) w) := by
  have hdash : dashCase (Text.trimmed answer) ≠ "" := hok.1
  have hblank : Text.trimmed answer ≠ "" := by
    intro hblank
    rw [hblank] at hdash
    exact hdash rfl
  have havail : (asked (.ask nameQuestion none) w).files.isAvailable base
      (Text.trimmed answer) := isAvailable_iff.2 hok
  rw [askName, bind_of_ok (ask_of_cons h _ _)]
  simp only [if_neg hblank, if_neg hdash]
  rw [bind_of_ok get_eq, if_pos havail]
  rfl

theorem askName_of_nil (h : w.answers = []) (n : Nat) :
    askName base (n + 1) w = .error .cancelled (asked (.ask nameQuestion none) w) := by
  rw [askName, bind_of_error (ask_of_nil h _ _)]

/-- The world after several answers have been turned down. -/
def turnDownAll (base : Path) (turned : List String) (w : World) : World :=
  turned.foldl (turnDown base) w

theorem askName_after {turned rest : List String} (h : w.answers = turned ++ rest)
    (hnot : ∀ a ∈ turned, ¬ Acceptable w.files base a) (n : Nat) :
    askName base (turned.length + n) w = askName base n (turnDownAll base turned w) := by
  induction turned generalizing w with
  | nil => rw [List.length_nil, Nat.zero_add, turnDownAll, List.foldl_nil]
  | cons answer turned ih =>
    obtain ⟨hfirst, hnot⟩ := List.forall_mem_cons.1 hnot
    have hlength : (answer :: turned).length + n = turned.length + n + 1 := by
      rw [List.length_cons]
      omega
    have hrest : (turnDown base w answer).answers = turned ++ rest := by
      rw [turnDown, h]
      rfl
    rw [hlength, askName_turnsDown h hfirst, ih hrest hnot]
    rfl

theorem turnDownAll_eq (base : Path) (turned : List String) (w : World) :
    turnDownAll base turned w =
      { w with
        answers := w.answers.drop turned.length
        prompts := w.prompts ++ turned.flatMap rejection
        log := w.log ++ turned.flatMap (complaint base) } := by
  induction turned generalizing w with
  | nil => simp [turnDownAll]
  | cons answer turned ih =>
    rw [turnDownAll, List.foldl_cons, ← turnDownAll, ih]
    simp [turnDown]

/-! ## The whole interview -/

/-- The world after an interview in which `turned` have been turned down and, of the questions of
the last round, the first `n` have been put. -/
def interviewed (base : Path) (defaults : Defaults) (turned : List String) (n : Nat)
    (left : List String) (w : World) : World :=
  { w with
    answers := left
    prompts := w.prompts ++ turned.flatMap rejection ++ (questions defaults).take n
    log := w.log ++ turned.flatMap (complaint base) }

theorem collect_of_turned {turned rest : List String} (h : w.answers = turned ++ rest)
    (hnot : ∀ a ∈ turned, ¬ Acceptable w.files base a)
    (hok : ∀ name ∈ rest.head?, Acceptable w.files base name) (defaults : Defaults) :
    collect base defaults w =
      match rest with
      | name :: version :: author :: email :: left =>
        .ok ⟨Text.trimmed name, orDefault defaults.version version,
          orDefault defaults.author author, orDefault defaults.email email⟩
          (interviewed base defaults turned 4 left w)
      | _ => .error .cancelled (interviewed base defaults turned (rest.length + 1) [] w) := by
  have hlength : w.answers.length + 1 = turned.length + (rest.length + 1) := by
    rw [h, List.length_append]
    omega
  have hname := askName_after h hnot (rest.length + 1)
  have hworld := turnDownAll_eq base turned w
  rw [h, List.drop_left] at hworld
  rw [collect, bind_of_ok get_eq, hlength]
  -- the name comes from the first answer that is left
  generalize turnDownAll base turned w = w₁ at hname hworld
  have hleft : w₁.answers = rest := by rw [hworld]
  have hfiles : w₁.files = w.files := by rw [hworld]
  rw [← hfiles] at hok
  rcases rest with _ | ⟨name, rest⟩
  · rw [bind_of_error (hname.trans (askName_of_nil hleft _))]
    simp [hworld, interviewed, asked, questions]
  rw [bind_of_ok (hname.trans (askName_accepts hleft (hok name rfl) _))]
  rcases rest with _ | ⟨version, rest⟩
  · rw [bind_of_error (askOr_of_nil (congrArg List.tail hleft) _ _)]
    simp [hworld, interviewed, asked, questions]
  rw [bind_of_ok (askOr_of_cons (congrArg List.tail hleft) _ _)]
  rcases rest with _ | ⟨author, rest⟩
  · rw [bind_of_error (askOr_of_nil (congrArg (·.tail.tail) hleft) _ _)]
    simp [hworld, interviewed, asked, questions]
  rw [bind_of_ok (askOr_of_cons (congrArg (·.tail.tail) hleft) _ _)]
  rcases rest with _ | ⟨email, left⟩
  · rw [bind_of_error (askOr_of_nil (congrArg (·.tail.tail.tail) hleft) _ _)]
    simp [hworld, interviewed, asked, questions]
  · rw [bind_of_ok (askOr_of_cons (congrArg (·.tail.tail.tail) hleft) _ _)]
    simp [hworld, interviewed, asked, questions, pure, EStateM.pure]

/-- From `w` to `w'` the answers `turned` were turned down, one after the other and each for its
own reason, and `count` questions were put in all. -/
structure Interview (defaults : Defaults) (w : World) (turned : List String) (count : Nat)
    (w' : World) : Prop where
  files : w'.files = w.files
  prompts : w'.prompts =
    w.prompts ++ turned.flatMap rejection ++ (questions defaults).take (count - turned.length)
  asked : w'.prompts.countP isAsk = w.prompts.countP isAsk + count
  rejected : w'.prompts.filter (!isAsk ·) =
    w.prompts.filter (!isAsk ·) ++ turned.map fun answer => .reject (objection answer)
  /-- No blank default is offered, and none for the name. -/
  offers : ∀ question default, .ask question (some default) ∈
      turned.flatMap rejection ++ (questions defaults).take (count - turned.length) →
    default ≠ "" ∧ question ≠ nameQuestion

theorem countP_rejections (turned : List String) :
    (turned.flatMap rejection).countP isAsk = turned.length := by
  induction turned with
  | nil => rfl
  | cons answer turned ih =>
    rw [List.flatMap_cons, List.countP_append, ih, List.length_cons, Nat.add_comm]
    rfl

theorem filter_rejections (turned : List String) :
    (turned.flatMap rejection).filter (!isAsk ·) =
      turned.map fun answer => .reject (objection answer) := by
  induction turned with
  | nil => rfl
  | cons answer turned ih =>
    rw [List.flatMap_cons, List.filter_append, ih]
    rfl

theorem isAsk_of_mem_questions {defaults : Defaults} {p : Prompt} (h : p ∈ questions defaults) :
    isAsk p := by
  simp only [questions, List.mem_cons, List.not_mem_nil, or_false] at h
  rcases h with rfl | rfl | rfl | rfl <;> rfl

theorem offer_of_mem {defaults : Defaults} {turned : List String} {n : Nat}
    {question default : String} (h : .ask question (some default) ∈
      turned.flatMap rejection ++ (questions defaults).take n) :
    default ≠ "" ∧ question ≠ nameQuestion := by
  have hoffered : ∀ {d : String}, some default = offered d → default ≠ "" := by
    intro d hd
    rw [offered] at hd
    split at hd
    · cases hd
    · rename_i hne
      rwa [Option.some.inj hd]
  rcases List.mem_append.1 h with h | h
  · obtain ⟨answer, -, hmem⟩ := List.mem_flatMap.1 h
    simp [rejection] at hmem
  · have hmem := List.mem_of_mem_take h
    simp only [questions, List.mem_cons, List.not_mem_nil, or_false, Prompt.ask.injEq,
      reduceCtorEq, and_false, false_or] at hmem
    rcases hmem with ⟨rfl, hd⟩ | ⟨rfl, hd⟩ | ⟨rfl, hd⟩
    · exact ⟨hoffered hd, by decide⟩
    · exact ⟨hoffered hd, by decide⟩
    · exact ⟨hoffered hd, by decide⟩

theorem interview_interviewed {n : Nat} (hn : n ≤ 4) (base : Path) (defaults : Defaults)
    (turned left : List String) (w : World) :
    Interview defaults w turned (turned.length + n)
      (interviewed base defaults turned n left w) := by
  have hcount : turned.length + n - turned.length = n := by omega
  have hall : ∀ p ∈ (questions defaults).take n, isAsk p := fun p hp =>
    isAsk_of_mem_questions (List.mem_of_mem_take hp)
  have hlength : ((questions defaults).take n).length = n := by
    rw [List.length_take]
    exact Nat.min_eq_left hn
  refine ⟨rfl, ?_, ?_, ?_, ?_⟩
  · rw [hcount]
    rfl
  · simp only [interviewed, List.countP_append, countP_rejections,
      List.countP_eq_length.2 hall, hlength]
    omega
  · have hnone : ((questions defaults).take n).filter (!isAsk ·) = [] :=
      List.filter_eq_nil_iff.2 fun p hp => by simp [hall p hp]
    simp only [interviewed, List.filter_append, filter_rejections, hnone, List.append_nil]
  · rw [hcount]
    exact fun question default h => offer_of_mem h

/-- The first acceptable answer is the name. If three more follow, they give the request, after
four questions for them and one for each answer turned down; without them, or without an acceptable
answer, the interview is broken off at the question that finds no answer left. -/
theorem collect_outcome (base : Path) (defaults : Defaults) (w : World) :
    (∀ turned name rest, w.answers = turned ++ name :: rest →
      (∀ answer ∈ turned, ¬ Acceptable w.files base answer) → Acceptable w.files base name →
      (∀ version author email left, rest = version :: author :: email :: left →
        ∃ w', collect base defaults w =
            .ok ⟨Text.trimmed name, orDefault defaults.version version,
              orDefault defaults.author author, orDefault defaults.email email⟩ w' ∧
          w'.answers = left ∧ Interview defaults w turned (turned.length + 4) w') ∧
      (w.answers.length < turned.length + 4 →
        ∃ w', collect base defaults w = .error .cancelled w' ∧ w'.answers = [] ∧
          Interview defaults w turned (w.answers.length + 1) w')) ∧
    ((∀ answer ∈ w.answers, ¬ Acceptable w.files base answer) →
      ∃ w', collect base defaults w = .error .cancelled w' ∧ w'.answers = [] ∧
        Interview defaults w w.answers (w.answers.length + 1) w') := by
  constructor
  · intro turned name rest h hnot hok
    have hrun := collect_of_turned h hnot (fun _ hx => Option.some.inj hx ▸ hok) defaults
    constructor
    · rintro version author email left rfl
      exact ⟨_, hrun, rfl, interview_interviewed (by omega) base defaults turned left w⟩
    · intro hshort
      rw [h, List.length_append, List.length_cons] at hshort
      have hcount : w.answers.length + 1 = turned.length + ((name :: rest).length + 1) := by
        rw [h, List.length_append]
        omega
      have hend := interview_interviewed (n := (name :: rest).length + 1)
        (by rw [List.length_cons]; omega) base defaults turned [] w
      rw [← hcount] at hend
      rcases rest with _ | ⟨version, _ | ⟨author, _ | ⟨email, left⟩⟩⟩
      · exact ⟨_, hrun, rfl, hend⟩
      · exact ⟨_, hrun, rfl, hend⟩
      · exact ⟨_, hrun, rfl, hend⟩
      · simp only [List.length_cons] at hshort
        omega
  · intro hnot
    have hall : w.answers = w.answers ++ [] := (List.append_nil _).symm
    have hrun := collect_of_turned hall hnot (by simp) defaults
    exact ⟨_, hrun, rfl, interview_interviewed (by omega) base defaults w.answers [] w⟩

/-- A blank name, one without a letter and one that is taken come before a name that is free; the
author is left blank. -/
theorem collect_outcome_retries :
    ∃ w', collect ⟨["."]⟩ ⟨"0.0.1", "Ada", ""⟩
        { files := ⟨[(["my-app"], .directory)], []⟩
          answers := [" ", "?!", "My App", " Other ", "1.0", "", "a@b", "more"] } =
        .ok ⟨"Other", "1.0", "Ada", "a@b"⟩ w' ∧ w'.answers = ["more"] ∧
      Interview ⟨"0.0.1", "Ada", ""⟩
        { files := ⟨[(["my-app"], .directory)], []⟩
          answers := [" ", "?!", "My App", " Other ", "1.0", "", "a@b", "more"] }
        [" ", "?!", "My App"] 7 w' := by
  have hnot : ∀ answer ∈ [" ", "?!", "My App"],
      ¬ Acceptable ⟨[(["my-app"], .directory)], []⟩ ⟨["."]⟩ answer := by decide +kernel
  have hok : Acceptable ⟨[(["my-app"], .directory)], []⟩ ⟨["."]⟩ " Other " := by decide +kernel
  have hrequest : (⟨Text.trimmed " Other ", orDefault "0.0.1" "1.0", orDefault "Ada" "",
      orDefault "" "a@b"⟩ : Request) = ⟨"Other", "1.0", "Ada", "a@b"⟩ := by decide +kernel
  obtain ⟨w', hrun, hleft, hinterview⟩ := ((collect_outcome ⟨["."]⟩ ⟨"0.0.1", "Ada", ""⟩
    { files := ⟨[(["my-app"], .directory)], []⟩
      answers := [" ", "?!", "My App", " Other ", "1.0", "", "a@b", "more"] }).1
    [" ", "?!", "My App"] " Other " ["1.0", "", "a@b", "more"] rfl hnot hok).1 _ _ _ _ rfl
  exact ⟨w', hrequest ▸ hrun, hleft, hinterview⟩

end Wizard

end Stencil
