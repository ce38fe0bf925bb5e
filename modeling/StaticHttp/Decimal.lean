import StaticHttp.Bytes
import StaticHttp.Word
/-! Decimal numerals. Reading admits leading zeros, no sign and no blank, and
refuses a numeral whose value does not fit in a word. -/
namespace StaticHttp.Decimal

def digit (d : Nat) : UInt8 := 0x30 + d.toUInt8

def value (b : UInt8) : Nat := b.toNat - 0x30

def readFrom (sum : Nat) : Bytes → Option Nat
  | [] => some sum
  | b :: rest =>
      if Byte.isDigit b && sum * 10 + value b < Word.size then readFrom (sum * 10 + value b) rest
      else none

def read? : Bytes → Option Nat
  | [] => none
  | numeral => readFrom 0 numeral

def write (n : Nat) : Bytes := if n < 10 then [digit n] else write (n / 10) ++ [digit (n % 10)]

def padded (width n : Nat) : Bytes := List.replicate (width - (write n).length) 0x30 ++ write n

end StaticHttp.Decimal
