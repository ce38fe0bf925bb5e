import StaticHttp.Draft
/-! The request line: a method, the target and the version, parted by blanks and
closed by CR LF. -/
namespace StaticHttp.Draft

def protocolRest : Bytes := ascii "ttp/"

def methodByte (buffer : Bytes) (d : Draft) (position : Nat) (b : UInt8) : Verdict Unit :=
  if Byte.isLetter b ∧ d.mark ≤ position ∧ position - d.mark < Method.longest then .next d
  else if b = Byte.space then
    match ((Span.range d.mark position).slice? buffer).bind Method.ofToken? with
    | some method => .next { d with method := some method, line := .beforeTarget }
    | none => .refuse d .invalidMethod
  else .refuse d .invalidMethod

def targetByte (buffer : Bytes) (d : Draft) (position : Nat) (b : UInt8) : Verdict Unit :=
  if Byte.isBlank b then
    match Target.split buffer (.range d.mark position) with
    | .ok target => .next { d with target := target, line := .beforeVersion }
    | .error fault => .refuse d fault
  else if Byte.isBreak b then .refuse d .invalidUrl
  else .next d

def protocolByte (d : Draft) (rest : Bytes) (b : UInt8) : Verdict Unit :=
  match rest with
  | [] => .refuse d .invalidVersion
  | [last] => if Byte.lower b = last then .next { d with line := .majorFirst } else .refuse d .invalidVersion
  | letter :: rest =>
      if Byte.lower b = letter then .next { d with line := .protocol rest } else .refuse d .invalidVersion

def majorByte (d : Draft) (number : Nat) (b : UInt8) : Verdict Unit :=
  match Version.extend number b with
  | .ok number => .next { d with version := { d.version with major := number }, line := .major }
  | .error fault => .refuse d fault

def minorByte (d : Draft) (number : Nat) (b : UInt8) : Verdict Unit :=
  match Version.extend number b with
  | .ok number => .next { d with version := { d.version with minor := number }, line := .minor }
  | .error fault => .refuse d fault

def lineByte (buffer : Bytes) (d : Draft) (position : Nat) (b : UInt8) : Verdict Unit :=
  match d.line with
  | .start =>
      if Byte.isLetter b then .next { d with mark := position, line := .method }
      else .refuse d .invalidMethod
  | .method => methodByte buffer d position b
  | .beforeTarget =>
      if Byte.isBlank b then .next d
      else if Byte.isBreak b then .refuse d .invalidUrl
      else .next { d with mark := position, line := .target }
  | .target => targetByte buffer d position b
  | .beforeVersion =>
      if Byte.isBlank b then .next d
      else if Byte.lower b = 0x68 then .next { d with line := .protocol protocolRest }
      else .refuse d .invalidVersion
  | .protocol rest => protocolByte d rest b
  | .majorFirst => majorByte d 0 b
  | .major => if b = Byte.dot then .next { d with line := .minorFirst } else majorByte d d.version.major b
  | .minorFirst => minorByte d 0 b
  | .minor => if b = Byte.cr then .next { d with line := .lineEnd } else minorByte d d.version.minor b
  | .lineEnd =>
      if b = Byte.lf then
        .stop { d with line := .finished, field := .start, cursor := position + 1 } ()
      else .refuse d .invalidVersion
  | .finished => .stop d ()

def readRequestLine (d : Draft) (buffer : Bytes) : Draft × Outcome Unit :=
  d.resume (lineByte buffer) buffer

end StaticHttp.Draft
