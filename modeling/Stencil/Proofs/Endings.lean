import Stencil.World

/-!
How runs end. `Run.Ends x w ok failed` says that `x`, begun in the world `w`, either returns with
`ok` or fails with `failed`, each of which speaks of the world that is left behind.
-/

namespace Stencil.Run

variable {α β : Type}

def Ends (x : Run α) (w : World) (ok : α → World → Prop) (failed : Failure → World → Prop) :
    Prop :=
  match x w with
  | .ok a w' => ok a w'
  | .error e w' => failed e w'

variable {w : World} {ok ok' : α → World → Prop} {failed failed' : Failure → World → Prop}

theorem Ends.of_ok {x : Run α} {a : α} {w' : World} (h : Ends x w ok failed)
    (hx : x w = .ok a w') : ok a w' := by
  simpa only [Ends, hx] using h

theorem Ends.of_error {x : Run α} {e : Failure} {w' : World} (h : Ends x w ok failed)
    (hx : x w = .error e w') : failed e w' := by
  simpa only [Ends, hx] using h

theorem Ends.imp {x : Run α} (h : Ends x w ok failed) (hok : ∀ a w', ok a w' → ok' a w')
    (hfailed : ∀ e w', failed e w' → failed' e w') : Ends x w ok' failed' := by
  unfold Ends at h ⊢
  cases hx : x w with
  | ok a w' => exact hok a w' (by simpa only [hx] using h)
  | error e w' => exact hfailed e w' (by simpa only [hx] using h)

/-- However the run ends, `after` holds of the world that is left behind. -/
def Leaves (x : Run α) (w : World) (after : World → Prop) : Prop :=
  Ends x w (fun _ => after) fun _ => after

/-- The world that is left behind. -/
def after (x : Run α) (w : World) : World :=
  match x w with
  | .ok _ w' => w'
  | .error _ w' => w'

/-- What the run returns. -/
def value? (x : Run α) (w : World) : Option α :=
  match x w with
  | .ok a _ => some a
  | .error _ _ => none

/-- Why the run fails. -/
def failure? (x : Run α) (w : World) : Option Failure :=
  match x w with
  | .ok _ _ => none
  | .error e _ => some e

theorem eq_ok_of_value? {x : Run α} {a : α} (h : x.value? w = some a) :
    x w = .ok a (x.after w) := by
  unfold value? at h
  unfold after
  cases hx : x w with
  | ok b w' =>
    simp only [hx, Option.some.injEq] at h
    rw [h]
  | error e w' => simp [hx] at h

theorem eq_error_of_failure? {x : Run α} {e : Failure} (h : x.failure? w = some e) :
    x w = .error e (x.after w) := by
  unfold failure? at h
  unfold after
  cases hx : x w with
  | ok b w' => simp [hx] at h
  | error e' w' =>
    simp only [hx, Option.some.injEq] at h
    rw [h]

theorem eq_after_of_ok {x : Run α} {a : α} {w' : World} (h : x w = .ok a w') :
    w' = x.after w := by
  rw [after, h]

theorem leaves_iff {x : Run α} {P : World → Prop} : Leaves x w P ↔ P (x.after w) := by
  unfold Leaves Ends after
  cases x w <;> rfl

theorem Ends.and {x : Run α} (h : Ends x w ok failed) (h' : Ends x w ok' failed') :
    Ends x w (fun a w' => ok a w' ∧ ok' a w') fun e w' => failed e w' ∧ failed' e w' := by
  unfold Ends at h h' ⊢
  cases hx : x w with
  | ok a w' =>
    simp only [hx] at h h'
    exact ⟨h, h'⟩
  | error e w' =>
    simp only [hx] at h h'
    exact ⟨h, h'⟩

theorem ends_pure {a : α} : Ends (pure a) w ok failed ↔ ok a w := Iff.rfl

theorem ends_throw {e : Failure} : Ends (throw e) w ok failed ↔ failed e w := Iff.rfl

theorem ends_get {ok : World → World → Prop} : Ends get w ok failed ↔ ok w w := Iff.rfl

theorem ends_bind {x : Run β} {f : β → Run α} :
    Ends (x >>= f) w ok failed ↔ Ends x w (fun b w' => Ends (f b) w' ok failed) failed := by
  unfold Ends
  simp only [bind, EStateM.bind]
  cases x w <;> rfl

theorem ends_emit {ok : Unit → World → Prop} {e : Event} :
    Ends (emit e) w ok failed ↔ ok () { w with log := w.log ++ [e] } := Iff.rfl

theorem ends_look {call : FileSystem → Except SystemError α} {failure : SystemError → Failure} :
    Ends (look call failure) w ok failed ↔
      match call w.files with
      | .ok a => ok a w
      | .error e => failed (failure e) w := by
  rw [look, ends_bind, ends_get]
  cases call w.files <;> rfl

theorem ends_change {call : FileSystem → Except SystemError FileSystem}
    {failure : SystemError → Failure} {ok : Unit → World → Prop} :
    Ends (change call failure) w ok failed ↔
      match call w.files with
      | .ok files => ok () { w with files }
      | .error e => failed (failure e) w := by
  rw [change, ends_bind, ends_look]
  cases call w.files <;> rfl

theorem ends_forM_nil {f : β → Run Unit} {ok : Unit → World → Prop} :
    Ends (([] : List β).forM f) w ok failed ↔ ok () w := Iff.rfl

theorem ends_forM_cons {b : β} {l : List β} {f : β → Run Unit} {ok : Unit → World → Prop} :
    Ends ((b :: l).forM f) w ok failed ↔
      Ends (f b) w (fun _ w' => Ends (l.forM f) w' ok failed) failed :=
  ends_bind

/-- What every round of a loop keeps, the loop keeps. -/
theorem ends_forM {l : List β} {f : β → Run Unit} {I : World → Prop}
    (h : ∀ b ∈ l, ∀ w, I w → Ends (f b) w (fun _ => I) failed) (hw : I w) :
    Ends (l.forM f) w (fun _ => I) failed := by
  induction l generalizing w with
  | nil => exact hw
  | cons b l ih =>
    rw [ends_forM_cons]
    refine (h b (by simp) w hw).imp (fun _ w' hw' => ?_) fun _ _ he => he
    exact ih (fun b hb => h b (by simp [hb])) hw'

/-- A loop does not return if one of its rounds cannot. -/
theorem ends_forM_of_mem {l : List β} {f : β → Run Unit} {I : World → Prop} {b : β} (hb : b ∈ l)
    (h : ∀ b ∈ l, ∀ w, I w → Ends (f b) w (fun _ => I) failed)
    (hfails : ∀ w, I w → Ends (f b) w (fun _ _ => False) failed) (hw : I w) :
    Ends (l.forM f) w (fun _ _ => False) failed := by
  induction l generalizing w with
  | nil => simp at hb
  | cons c l ih =>
    obtain ⟨hfirst, hrest⟩ := List.forall_mem_cons.1 h
    rw [ends_forM_cons]
    rcases List.mem_cons.1 hb with rfl | hb
    · exact (hfails w hw).imp (fun _ _ => False.elim) fun _ _ he => he
    · exact (hfirst w hw).imp (fun _ w' => ih hb hrest) fun _ _ he => he

theorem ends_forM_append {l l' : List β} {f : β → Run Unit} {ok : Unit → World → Prop} :
    Ends ((l ++ l').forM f) w ok failed ↔
      Ends (l.forM f) w (fun _ w' => Ends (l'.forM f) w' ok failed) failed := by
  induction l generalizing w with
  | nil => rfl
  | cons b l ih =>
    rw [List.cons_append, ends_forM_cons, ends_forM_cons]
    simp only [ih]

/-! ## What a run can fail with -/

/-- In every world the run returns, or fails with a failure that `P` allows. -/
def FailsOnly (x : Run α) (P : Failure → Prop) : Prop :=
  ∀ w, Ends x w (fun _ _ => True) fun e _ => P e

variable {P : Failure → Prop}

theorem failsOnly_pure (a : α) : FailsOnly (pure a) P := fun _ => trivial

theorem failsOnly_throw {e : Failure} (h : P e) : FailsOnly (throw e : Run α) P := fun _ => h

theorem failsOnly_get : FailsOnly (get : Run World) P := fun _ => trivial

theorem failsOnly_emit (e : Event) : FailsOnly (emit e) P := fun _ => trivial

theorem FailsOnly.bind {x : Run β} {f : β → Run α} (hx : FailsOnly x P)
    (hf : ∀ b, FailsOnly (f b) P) : FailsOnly (x >>= f) P := by
  intro w
  rw [ends_bind]
  exact (hx w).imp (fun b w' _ => hf b w') fun _ _ he => he

theorem failsOnly_look {call : FileSystem → Except SystemError α}
    {failure : SystemError → Failure} (h : ∀ e, P (failure e)) :
    FailsOnly (look call failure) P := by
  intro w
  rw [ends_look]
  cases call w.files with
  | ok a => trivial
  | error e => exact h e

theorem failsOnly_change {call : FileSystem → Except SystemError FileSystem}
    {failure : SystemError → Failure} (h : ∀ e, P (failure e)) :
    FailsOnly (change call failure) P :=
  (failsOnly_look h).bind fun _ _ => trivial

theorem failsOnly_forM {l : List β} {f : β → Run Unit} (h : ∀ b ∈ l, FailsOnly (f b) P) :
    FailsOnly (l.forM f) P :=
  fun _ => ends_forM (I := fun _ => True) (fun b hb w _ => h b hb w) trivial

theorem failsOnly_foldlM {l : List β} {f : α → β → Run α} (h : ∀ a b, FailsOnly (f a b) P)
    (a : α) : FailsOnly (l.foldlM f a) P := by
  induction l generalizing a with
  | nil => exact failsOnly_pure a
  | cons b l ih =>
    rw [List.foldlM_cons]
    exact (h a b).bind ih

/-! ## Runs step by step -/

theorem bind_of_ok {x : Run β} {f : β → Run α} {b : β} {w' : World} (h : x w = .ok b w') :
    (x >>= f) w = f b w' := by
  simp only [bind, EStateM.bind, h]

theorem bind_of_error {x : Run β} {f : β → Run α} {e : Failure} {w' : World}
    (h : x w = .error e w') : (x >>= f) w = .error e w' := by
  simp only [bind, EStateM.bind, h]

theorem get_eq : (get : Run World) w = .ok w w := rfl

theorem emit_eq (e : Event) : emit e w = .ok () { w with log := w.log ++ [e] } := rfl

end Stencil.Run
