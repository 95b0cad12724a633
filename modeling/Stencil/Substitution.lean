import Stencil.Bindings
import Stencil.Placeholder

/-!
Substitution: every placeholder of a text is replaced by the value of its name, in one pass from
left to right. A value is inserted as it is and not read again. What happens to a name without a
value is decided by a policy.
-/

namespace Stencil

/-- What to do with a placeholder whose name has no value. -/
inductive Policy
  /-- Leave it as it is written. -/
  | keep
  /-- Leave it out. -/
  | remove
  /-- Give up, naming it. -/
  | fail
  deriving DecidableEq, Repr, Inhabited

/-- What a segment becomes, or the name that has no value. -/
def Segment.fill (bindings : Bindings) (policy : Policy) : Segment → Except String String
  | .literal s => .ok s
  | .placeholder t =>
    match bindings.get? t.name, policy with
    | some value, _ => .ok value
    | none, .keep => .ok t.raw
    | none, .remove => .ok ""
    | none, .fail => .error t.name

/-- The text with its placeholders filled in, or the first name that the policy refuses. -/
def substitute (text : String) (bindings : Bindings) (policy : Policy) : Except String String := do
  let parts ← (segments text).mapM (Segment.fill bindings policy)
  return String.join parts

end Stencil
