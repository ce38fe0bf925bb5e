import StaticHttp.Bytes
import StaticHttp.Fault
/-! The protocol version, collected digit by digit. -/
namespace StaticHttp

structure Version where
  major : Nat
  minor : Nat
  deriving DecidableEq, Repr

namespace Version

def unread : Version := ⟨0, 0⟩
def http10 : Version := ⟨1, 0⟩
def http11 : Version := ⟨1, 1⟩

def keepsAlive (v : Version) : Bool := v == http11

/- What a status line starts with. An unread version is answered as 1.1. -/
def echo (v : Version) : Bytes := if v = http10 then ascii "HTTP/1.0" else ascii "HTTP/1.1"

theorem echoListed (v : Version) : v.echo ∈ [ascii "HTTP/1.0", ascii "HTTP/1.1"] := by
  unfold echo
  split
  · exact List.mem_cons_self
  · exact List.mem_cons_of_mem _ List.mem_cons_self

/- One more digit. No number above one is supported. -/
def extend (number : Nat) (b : UInt8) : Except Fault Nat :=
  if Byte.isDigit b then
    let extended := number * 10 + (b.toNat - 0x30)
    if extended > 1 then .error .unsupportedVersion else .ok extended
  else .error .invalidVersion

def summary (v : Version) : String :=
  "Version \x7b major: " ++ toString v.major ++ ", minor: " ++ toString v.minor ++ " \x7d"

end Version
end StaticHttp
