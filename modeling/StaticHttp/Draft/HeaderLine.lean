import StaticHttp.Draft
/-! Header lines: a name of letters, digits and dashes, a colon, a value without
the blanks around it. LF alone ends a line as well as CR LF; a blank line ends
the head. -/
namespace StaticHttp

inductive HeaderLine where
  | field
  | blank
  deriving DecidableEq, Repr

namespace Draft

def isNameByte (b : UInt8) : Bool := Byte.isLetter b || Byte.isDigit b || b == Byte.dash

def endLine (d : Draft) (position : Nat) : Draft := { d with field := .start, cursor := position + 1 }

def endValue (buffer : Bytes) (d : Draft) (position : Nat) : Draft :=
  { d with value := (Span.range d.mark position).trimRight buffer }

def headerByte (buffer : Bytes) (d : Draft) (position : Nat) (b : UInt8) : Verdict HeaderLine :=
  match d.field with
  | .start =>
      if b = Byte.cr then .next { d with field := .blankEnd }
      else if b = Byte.lf then .stop (d.endLine position) .blank
      else if isNameByte b then .next { d with mark := position, field := .name }
      else .refuse d .invalidHeader
  | .name =>
      if b = Byte.colon then
        .next { d with name := .range d.mark position, field := .beforeValue }
      else if isNameByte b then .next d
      else .refuse d .invalidHeader
  | .beforeValue =>
      if Byte.isBlank b then .next d
      else if Byte.isBreak b then .refuse d .invalidHeader
      else .next { d with mark := position, field := .value }
  | .value =>
      if b = Byte.cr then .next { endValue buffer d position with field := .valueEnd }
      else if b = Byte.lf then .stop ((endValue buffer d position).endLine position) .field
      else .next d
  | .valueEnd =>
      if b = Byte.lf then .stop (d.endLine position) .field else .refuse d .invalidHeader
  | .blankEnd =>
      if b = Byte.lf then .stop (d.endLine position) .blank else .refuse d .invalidHeader

def readHeaderLine (d : Draft) (buffer : Bytes) : Draft × Outcome HeaderLine :=
  d.resume (headerByte buffer) buffer

end Draft
end StaticHttp
