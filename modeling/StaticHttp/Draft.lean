import StaticHttp.Method
import StaticHttp.Version
import StaticHttp.Target
import StaticHttp.Field
import StaticHttp.Coding
/-! What has been read of one request so far, with the place where reading goes
on. Positions and spans count from the first byte of the buffer that is read. -/
namespace StaticHttp

inductive LineState where
  | start
  | method
  | beforeTarget
  | target
  | beforeVersion
  | protocol (rest : Bytes)
  | majorFirst
  | major
  | minorFirst
  | minor
  | lineEnd
  | finished
  deriving DecidableEq, Repr

inductive FieldState where
  | start
  | name
  | beforeValue
  | value
  | valueEnd
  | blankEnd
  deriving DecidableEq, Repr

structure Draft where
  line : LineState := .start
  field : FieldState := .start
  mark : Nat := 0
  cursor : Nat := 0
  method : Option Method := none
  target : Target := {}
  version : Version := .unread
  name : Span := .unset
  value : Span := .unset
  fields : FieldSpans := []
  coding : Coding := .identity
  contentLength : Nat := 0
  bodyRead : Nat := 0
  keepAlive : Bool := false
  deriving DecidableEq, Repr

inductive Outcome (α : Type) where
  | more
  | found (result : α)
  | failed (fault : Fault)
  deriving DecidableEq, Repr

inductive Verdict (α : Type) where
  | next (draft : Draft)
  | stop (draft : Draft) (result : α)
  | refuse (draft : Draft) (fault : Fault)

namespace Draft
variable {α : Type}

/- Feeds the bytes from `position` on to `step`. A draft that runs out of bytes
is parked behind the last one; a refused draft keeps the cursor it had. -/
def scan (step : Draft → Nat → UInt8 → Verdict α) (d : Draft) (position : Nat) :
    Bytes → Draft × Outcome α
  | [] => ({ d with cursor := position }, .more)
  | b :: rest =>
      match step d position b with
      | .next d => scan step d (position + 1) rest
      | .stop d result => (d, .found result)
      | .refuse d fault => (d, .failed fault)

def resume (step : Draft → Nat → UInt8 → Verdict α) (d : Draft) (buffer : Bytes) :
    Draft × Outcome α :=
  scan step d d.cursor (buffer.drop d.cursor)

end Draft
end StaticHttp
