import Stencil.Json.Number

/-!
Values, skipped or asked for. A record is read from an object, whose members may come in any
order and among others, or from an array, whose items are the fields in order.
-/

namespace Stencil.Json

mutual

/-- Skip a value, in at most `n` steps. -/
def skipValue : Nat → Bytes → Except Fault Bytes
  | 0, _ => .error .truncated
  | n + 1, bs =>
    match skipBlanks bs with
    | [] => .error .truncated
    | 0x6e :: bs => skipWord [0x75, 0x6c, 0x6c] bs
    | 0x74 :: bs => skipWord [0x72, 0x75, 0x65] bs
    | 0x66 :: bs => skipWord [0x61, 0x6c, 0x73, 0x65] bs
    | 0x2d :: bs => skipNumber bs
    | 0x22 :: bs => skipString bs
    | 0x5b :: bs =>
      match skipBlanks bs with
      | 0x5d :: bs => .ok bs
      | bs => skipItems n bs
    | 0x7b :: bs =>
      match skipBlanks bs with
      | 0x7d :: bs => .ok bs
      | bs => skipMembers n bs
    | b :: bs => if isDigit b then skipNumber (b :: bs) else .error .malformed

/-- Skip the items of an array, of which there is one at least, and its end. -/
def skipItems : Nat → Bytes → Except Fault Bytes
  | 0, _ => .error .truncated
  | n + 1, bs =>
    match skipValue n bs with
    | .error e => .error e
    | .ok bs =>
      match skipBlanks bs with
      | [] => .error .truncated
      | 0x2c :: bs => skipItems n bs
      | 0x5d :: bs => .ok bs
      | _ => .error .malformed

/-- Skip the members of an object, of which there is one at least, and its end. -/
def skipMembers : Nat → Bytes → Except Fault Bytes
  | 0, _ => .error .truncated
  | n + 1, bs =>
    match skipBlanks bs with
    | [] => .error .truncated
    | 0x22 :: bs =>
      match skipString bs with
      | .error e => .error e
      | .ok bs =>
        match skipBlanks bs with
        | [] => .error .truncated
        | 0x3a :: bs =>
          match skipValue n bs with
          | .error e => .error e
          | .ok bs =>
            match skipBlanks bs with
            | [] => .error .truncated
            | 0x2c :: bs => skipMembers n bs
            | 0x7d :: bs => .ok bs
            | _ => .error .malformed
        | _ => .error .malformed
    | _ => .error .malformed

end

/-- Skip a value of any depth. A step into a value and one to the next item take a byte each
time. -/
def skipAny (bs : Bytes) : Except Fault Bytes := skipValue (2 * bs.length + 2) bs

/-- The fault of a value that is not of the shape that was asked for. -/
def shapeFault (bs : Bytes) : Fault :=
  match bs with
  | [] => .truncated
  | 0x5b :: _ | 0x7b :: _ => .mismatched
  | 0x2d :: bs => numberFault bs
  | 0x22 :: bs =>
    match stringText bs with
    | .error e => e
    | .ok _ => .mismatched
  | b :: _ =>
    if isDigit b then numberFault bs
    else if b = 0x6e || b = 0x74 || b = 0x66 then
      match skipAny bs with
      | .error e => e
      | .ok _ => .mismatched
    else .malformed

/-- Read a string. -/
def readText (bs : Bytes) : Except Fault (String × Bytes) :=
  match skipBlanks bs with
  | 0x22 :: bs => stringText bs
  | bs => .error (shapeFault bs)

/-- Read the value of a member whose name has been read. -/
def readMemberValue {α : Type} (value : Bytes → Except Fault (α × Bytes)) (bs : Bytes) :
    Except Fault (α × Bytes) :=
  match skipBlanks bs with
  | 0x3a :: bs => value bs
  | [] => .error .truncated
  | _ => .error .malformed

/-- Read a member that may come once. -/
def readOnce {α : Type} (known : Option α) (value : Bytes → Except Fault (α × Bytes))
    (bs : Bytes) : Except Fault (α × Bytes) :=
  match known with
  | some _ => .error .mismatched
  | none => readMemberValue value bs

/-- Skip the value of a member that is not known. -/
def skipMemberValue (bs : Bytes) : Except Fault Bytes :=
  (readMemberValue (fun bs => (skipAny bs).map (((), ·))) bs).map (·.2)

/-- Read the members of an object up to its end. `member` takes up one of the given name; `first`
holds before the first one. -/
def readMembers {σ : Type} (member : String → σ → Bytes → Except Fault (σ × Bytes)) :
    Nat → Bool → σ → Bytes → Except Fault (σ × Bytes)
  | 0, _, _, _ => .error .truncated
  | n + 1, first, s, bs => do
    match skipBlanks bs with
    | [] => .error .truncated
    | 0x7d :: bs => return (s, bs)
    | b :: bs =>
      if !first && b ≠ 0x2c then throw .malformed
      match (if first then b :: bs else skipBlanks bs) with
      | 0x22 :: bs =>
        let (name, bs) ← stringText bs
        let (s, bs) ← member name s bs
        readMembers member n false s bs
      | [] => .error .truncated
      | _ => .error .malformed

/-- Go to the next item of an array, which must not be at its end. -/
def nextItem (first : Bool) (bs : Bytes) : Except Fault Bytes :=
  match skipBlanks bs with
  | [] => .error .truncated
  | 0x5d :: _ => .error .mismatched
  | b :: bs =>
    if first then .ok (b :: bs)
    else if b ≠ 0x2c then .error .malformed
    else match skipBlanks bs with
      | [] => .error .truncated
      | 0x5d :: _ => .error .malformed
      | bs => .ok bs

/-- Read the end of an array. -/
def closeArray (bs : Bytes) : Except Fault Bytes :=
  match skipBlanks bs with
  | [] => .error .truncated
  | 0x5d :: bs => .ok bs
  | _ => .error .malformed

/-- Nothing but blanks may follow. -/
def closeText (bs : Bytes) : Except Fault Unit :=
  if (skipBlanks bs).isEmpty then .ok () else .error .malformed

end Stencil.Json
