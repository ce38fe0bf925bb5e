import StaticHttp.Bytes
import StaticHttp.Word
/-! A span names a stretch of a byte string it does not hold. It is resolved
against a string each time, and yields nothing where it does not fit. -/
namespace StaticHttp

structure Span where
  start : Nat
  len : Nat
  deriving DecidableEq, Repr

namespace Span

def unset : Span := ⟨0, 0⟩
instance : Inhabited Span := ⟨unset⟩

def stop (s : Span) : Nat := Word.add s.start s.len

def range (start stop : Nat) : Span := ⟨start, stop - start⟩

def emptyAt (position : Nat) : Span := ⟨position, 0⟩

def isEmpty (s : Span) : Bool := s.len == 0

def slice? (s : Span) (buffer : Bytes) : Option Bytes :=
  if s.start ≤ s.stop ∧ s.stop ≤ buffer.length then
    some ((buffer.drop s.start).take (s.stop - s.start))
  else none

def sameLetters (s : Span) (buffer other : Bytes) : Bool :=
  match s.slice? buffer with
  | some bytes => bytes.sameLetters other
  | none => false

def trimRight (s : Span) (buffer : Bytes) : Span :=
  match s.slice? buffer with
  | some bytes => { s with len := bytes.trimRight.length }
  | none => s

theorem sliceSomeIff {s : Span} {buffer bytes : Bytes} :
    s.slice? buffer = some bytes ↔ s.start ≤ s.stop ∧ s.stop ≤ buffer.length ∧
      bytes = (buffer.drop s.start).take (s.stop - s.start) := by
  unfold slice?
  constructor
  · intro sliced
    split at sliced
    · rename_i bounds
      exact ⟨bounds.1, bounds.2, (Option.some.inj sliced).symm⟩
    · contradiction
  · rintro ⟨lower, upper, rfl⟩
    rw [if_pos ⟨lower, upper⟩]

theorem sliceInside {s : Span} {buffer : Bytes} (word : buffer.length < Word.size)
    (inside : s.start + s.len ≤ buffer.length) :
    s.slice? buffer = some ((buffer.drop s.start).take s.len) := by
  have stop : s.stop = s.start + s.len := Word.addFits (by omega)
  unfold slice?
  rw [stop, if_pos ⟨by omega, inside⟩, Nat.add_sub_cancel_left]

end Span
end StaticHttp
