import StaticHttp.Bytes
/-! UTF-8, read unit by unit. A unit is a whole character or the longest run of
bytes that begins one but cannot be continued by the next byte; a byte that
begins none is a unit alone. -/
namespace StaticHttp.Utf8

def follow (lead : UInt8) : Option (UInt8 × UInt8 × Nat) :=
  if 0xC2 ≤ lead && lead ≤ 0xDF then some (0x80, 0xBF, 1)
  else if lead = 0xE0 then some (0xA0, 0xBF, 2)
  else if lead = 0xED then some (0x80, 0x9F, 2)
  else if 0xE1 ≤ lead && lead ≤ 0xEF then some (0x80, 0xBF, 2)
  else if lead = 0xF0 then some (0x90, 0xBF, 3)
  else if 0xF1 ≤ lead && lead ≤ 0xF3 then some (0x80, 0xBF, 3)
  else if lead = 0xF4 then some (0x80, 0x8F, 3)
  else none

def leadBits (lead : UInt8) (n : Nat) : Nat := lead.toNat % Nat.pow 2 (6 - n)

def collect (bits : Nat) (low high : UInt8) (taken : Nat) : Nat → Bytes → Option Char × Nat
  | 0, _ => (some (Char.ofNat bits), taken)
  | _ + 1, [] => (none, taken)
  | n + 1, b :: rest =>
      if low ≤ b && b ≤ high then
        collect (bits * 64 + b.toNat % 64) 0x80 0xBF (taken + 1) n rest
      else (none, taken)

def unit (lead : UInt8) (rest : Bytes) : Option Char × Nat :=
  if lead ≤ 0x7F then (some (Char.ofNat lead.toNat), 0)
  else
    match follow lead with
    | some (low, high, n) => collect (leadBits lead n) low high 0 n rest
    | none => (none, 0)

def units : Nat → Bytes → List (Option Char)
  | _, [] => []
  | skip + 1, _ :: rest => units skip rest
  | 0, lead :: rest => (unit lead rest).1 :: units (unit lead rest).2 rest

def valid (bytes : Bytes) : Bool := (units 0 bytes).all Option.isSome

def lossy (bytes : Bytes) : List Char := (units 0 bytes).map fun c => c.getD '\uFFFD'

end StaticHttp.Utf8
