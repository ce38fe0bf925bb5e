import StaticHttp.Draft.HeaderLine
import StaticHttp.Decimal
import StaticHttp.Limits
/-! What the header lines of a head mean for a request, line by line in their
order. Later lines of a field override earlier ones, and the first line that is
refused ends the request. -/
namespace StaticHttp.Draft

def announcedLength (limits : Limits) (value : Bytes) : Except Fault Nat :=
  match Decimal.read? value with
  | some length =>
      if length = 0 then .error .invalidContentLength
      else if length > limits.bodyLimit then .error .bodyTooLarge
      else .ok length
  | none => .error .invalidContentLength

def announcedReuse (value : Bytes) : Except Fault Bool :=
  if value.sameLetters (ascii "keep-alive") then .ok true
  else if value.sameLetters (ascii "close") then .ok false
  else .error .invalidConnection

def treat (limits : Limits) (d : Draft) (treatment : Treatment) (value : Bytes) : Draft × Option Fault :=
  match treatment with
  | .none => (d, none)
  | .connection =>
      match announcedReuse value with
      | .ok keepAlive => ({ d with keepAlive := keepAlive }, none)
      | .error fault => (d, some fault)
  | .contentLength =>
      match announcedLength limits value with
      | .ok length => ({ d with contentLength := length }, none)
      | .error fault => (d, some fault)
  | .transferEncoding =>
      match Coding.ofValue? value with
      | some coding => ({ d with coding := coding }, some .unsupportedTransferEncoding)
      | none => (d, some .invalidTransferEncoding)

def accept (limits : Limits) (d : Draft) (field : Field) (buffer : Bytes) : Draft × Option Fault :=
  let noted := { d with fields := d.fields.set field d.value }
  match d.value.slice? buffer with
  | some value => treat limits noted field.treatment value
  | none => (noted, some .invalidHeader)

def applyLine (hash : Bytes → Nat) (limits : Limits) (d : Draft) (buffer : Bytes) : Draft × Option Fault :=
  match d.name.slice? buffer with
  | none => (d, some .invalidHeader)
  | some name =>
      match Field.ofName? hash name with
      | some field => d.accept limits field buffer
      | none => (d, none)

def headByte (hash : Bytes → Nat) (limits : Limits) (buffer : Bytes) (d : Draft) (position : Nat) (b : UInt8) : Verdict Unit :=
  match headerByte buffer d position b with
  | .next d => .next d
  | .stop d .blank => .stop d ()
  | .stop d .field =>
      match d.applyLine hash limits buffer with
      | (d, none) => .next d
      | (d, some fault) => .refuse d fault
  | .refuse d fault => .refuse d fault

def readHeaders (hash : Bytes → Nat) (limits : Limits) (d : Draft) (buffer : Bytes) : Draft × Outcome Unit :=
  d.resume (headByte hash limits buffer) buffer

end StaticHttp.Draft
