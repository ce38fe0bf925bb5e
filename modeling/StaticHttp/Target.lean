import StaticHttp.Span
import StaticHttp.Fault
/-! The target of a request and its parts, all as spans of one buffer. -/
namespace StaticHttp

structure Target where
  whole : Span := .unset
  path : Span := .unset
  query : Span := .unset
  /- What follows the last dot of the last path segment; empty at the end of
  the path when that segment has no dot. -/
  extension : Span := .unset
  deriving DecidableEq, Repr, Inhabited

namespace Target

def firstOf (b : UInt8) (bytes : Bytes) : Option Nat := bytes.findIdx? (· == b)

def lastMark : Bytes → Option (Nat × Bool)
  | [] => none
  | b :: rest =>
      match lastMark rest with
      | some (i, isDot) => some (i + 1, isDot)
      | none => if b = Byte.dot then some (0, true) else if b = Byte.slash then some (0, false) else none

def pathOf (whole : Span) (bytes : Bytes) : Span :=
  match firstOf Byte.question bytes with
  | some i => ⟨whole.start, i⟩
  | none => whole

def queryOf (whole : Span) (bytes : Bytes) : Span :=
  match firstOf Byte.question bytes with
  | some i => .range (whole.start + i + 1) whole.stop
  | none => .emptyAt whole.stop

def extensionOf (path : Span) (bytes : Bytes) : Span :=
  match lastMark bytes with
  | some (i, true) => .range (path.start + i + 1) path.stop
  | _ => .emptyAt path.stop

def split (buffer : Bytes) (whole : Span) : Except Fault Target :=
  match whole.slice? buffer with
  | some (first :: rest) =>
      if first = Byte.slash then
        let path := pathOf whole (first :: rest)
        .ok {
          whole := whole
          path := path
          query := queryOf whole (first :: rest)
          extension := extensionOf path ((path.slice? buffer).getD []) }
      else .error .invalidUrl
  | _ => .error .invalidUrl

end Target
end StaticHttp
