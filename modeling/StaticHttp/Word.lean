/-! Counts and offsets are kept in words of 64 bits. Only the places where a sum that
leaves the word can be seen go through these operations. -/
namespace StaticHttp

/- What a sum that leaves the word comes to, as the program is built: the end of the
program, or the sum gone round. -/
inductive Overflow where
  | stops
  | wraps
  deriving DecidableEq, Repr

namespace Word

def size : Nat := Nat.pow 2 64

def mostBytes : Nat := Nat.pow 2 63 - 1

def add (a b : Nat) : Nat := (a + b) % size

def sum? : Overflow → Nat → Nat → Option Nat
  | .stops, a, b => if a + b < size then some (a + b) else none
  | .wraps, a, b => some (add a b)

def sub (a b : Nat) : Nat := if b ≤ a then a - b else (a + size - b) % size

theorem addFits {a b : Nat} (fits : a + b < size) : add a b = a + b := Nat.mod_eq_of_lt fits

theorem addBelow (a b : Nat) : add a b < size := Nat.mod_lt _ (by decide)

theorem addOver {a b : Nat} (left : a < size) (right : b < size) (past : size ≤ a + b) : add a b = a + b - size := by
  rw [add, Nat.mod_eq_sub_mod past]
  exact Nat.mod_eq_of_lt (by omega)

theorem mostBelow : mostBytes < size := by decide

theorem sumFits (overflow : Overflow) {a b : Nat} (fits : a + b < size) : sum? overflow a b = some (a + b) := by
  cases overflow with
  | stops => exact if_pos fits
  | wraps => exact congrArg some (addFits fits)

theorem sumStops {a b : Nat} : sum? .stops a b = none ↔ size ≤ a + b := by
  simp [sum?]

theorem sumAdd {overflow : Overflow} {a b c : Nat} (sum : sum? overflow a b = some c) : c = add a b := by
  cases overflow with
  | stops =>
    obtain ⟨fits, same⟩ := Option.ite_none_right_eq_some.mp sum
    exact Option.some.inj same ▸ (addFits fits).symm
  | wraps => exact (Option.some.inj sum).symm

theorem subOrdered {a b : Nat} (ordered : b ≤ a) : sub a b = a - b := if_pos ordered

end Word
end StaticHttp
