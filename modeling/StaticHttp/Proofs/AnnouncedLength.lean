import Mathlib.Data.List.Induction
import Mathlib.Data.Nat.Digits.Defs
import StaticHttp.Proofs.Headers
import StaticHttp.Proofs.Numerals
/-! Announced body lengths, decided exactly up to the limit of a word. Reading keeps its sum in
a word and looks behind every product and behind every sum whether it has left the word: it
ends at the first digit that takes the number out of it, and what it yields is the number that
the digits denote. What a line with a length comes to is told from that number alone. -/
namespace StaticHttp

namespace Word

theorem small (w : UInt64) : w.toNat < size := w.toNat_lt

theorem ofSmall {n : Nat} (fits : n < size) : ∃ w : UInt64, w.toNat = n :=
  ⟨UInt64.ofNat n, UInt64.toNat_ofNat_of_lt fits⟩

def checked (exact : Nat) (wrapped : UInt64) : Option UInt64 := if exact < size then some wrapped else none

def times? (a b : UInt64) : Option UInt64 := checked (a.toNat * b.toNat) (a * b)

def plus? (a b : UInt64) : Option UInt64 := checked (a.toNat + b.toNat) (a + b)

theorem checkedIff {exact : Nat} {wrapped c : UInt64} (wraps : wrapped.toNat = exact % size) :
    checked exact wrapped = some c ↔ exact = c.toNat := by
  unfold checked
  constructor
  · intro made
    split at made
    · rename_i fits
      obtain rfl := Option.some.inj made
      rw [wraps, Nat.mod_eq_of_lt fits]
    · contradiction
  · intro same
    have fits : exact < size := same ▸ small c
    rw [if_pos fits, Option.some.injEq, ← UInt64.toNat_inj, wraps, Nat.mod_eq_of_lt fits, same]

theorem timesIff {a b c : UInt64} : times? a b = some c ↔ a.toNat * b.toNat = c.toNat :=
  checkedIff (UInt64.toNat_mul a b)

theorem plusIff {a b c : UInt64} : plus? a b = some c ↔ a.toNat + b.toNat = c.toNat :=
  checkedIff (UInt64.toNat_add a b)

end Word

namespace Decimal
variable {bytes : Bytes} {n : Nat}

def extendWord (sum : UInt64) (b : UInt8) : Option UInt64 := do
  let tenfold ← Word.times? sum 10
  Word.plus? tenfold (b - 0x30).toUInt64

def readWordsFrom (sum : UInt64) : Bytes → Option UInt64
  | [] => some sum
  | b :: rest => do
      if Byte.isDigit b then
        let next ← extendWord sum b
        readWordsFrom next rest
      else none

def readWords? : Bytes → Option UInt64
  | [] => none
  | numeral => readWordsFrom 0 numeral

theorem digitWord {b : UInt8} (digit : Byte.isDigit b = true) : (b - 0x30).toUInt64.toNat = value b := by
  simp only [Byte.isDigit, Bool.and_eq_true, decide_eq_true_eq] at digit
  rw [UInt8.toNat_toUInt64, UInt8.toNat_sub_of_le _ _ digit.1]
  rfl

theorem extendWordIff {sum next : UInt64} {b : UInt8} (digit : Byte.isDigit b = true) :
    extendWord sum b = some next ↔ sum.toNat * 10 + value b = next.toNat := by
  have word := Word.small next
  simp only [extendWord, Option.bind_eq_bind, Option.bind_eq_some_iff, Word.timesIff, Word.plusIff, digitWord digit]
  constructor
  · rintro ⟨tenfold, product, total⟩
    rw [← total, ← product]
    rfl
  · intro total
    obtain ⟨tenfold, product⟩ := Word.ofSmall (n := sum.toNat * 10) (by omega)
    exact ⟨tenfold, product.symm, by rw [product, total]⟩

theorem readWordsSame (sum : UInt64) (bytes : Bytes) :
    readFrom sum.toNat bytes = (readWordsFrom sum bytes).map UInt64.toNat := by
  induction bytes generalizing sum with
  | nil => rfl
  | cons b rest ih =>
    simp only [readFrom, readWordsFrom, Bool.and_eq_true, decide_eq_true_eq]
    by_cases digit : Byte.isDigit b = true
    · cases extended : extendWord sum b with
      | some next =>
        have total := (extendWordIff digit).mp extended
        rw [total, if_pos ⟨digit, Word.small next⟩, if_pos digit, ih next]
        rfl
      | none =>
        have long : ¬ sum.toNat * 10 + value b < Word.size := fun fits => by
          obtain ⟨next, total⟩ := Word.ofSmall fits
          rw [(extendWordIff digit).mpr total.symm] at extended
          contradiction
        rw [if_neg fun both => long both.2, if_pos digit]
        rfl
    · rw [if_neg fun both => digit both.1, if_neg digit]
      rfl

theorem readWords (bytes : Bytes) : read? bytes = (readWords? bytes).map UInt64.toNat := by
  cases bytes with
  | nil => rfl
  | cons b rest => exact readWordsSame 0 (b :: rest)

def denoted (numeral : Bytes) : Nat := Nat.ofDigits 10 (numeral.reverse.map value)

theorem denotedSnoc (front : Bytes) (b : UInt8) : denoted (front ++ [b]) = denoted front * 10 + value b := by
  simp only [denoted, List.reverse_append, List.reverse_singleton, List.singleton_append, List.map_cons,
    Nat.ofDigits_cons]
  omega

theorem numberDenoted (bytes : Bytes) : number bytes = denoted bytes := by
  induction bytes using List.reverseRecOn with
  | nil => rfl
  | append_singleton front b ih =>
    rw [denotedSnoc, ← ih]
    simp only [number, numberFrom, List.foldl_append, List.foldl_cons, List.foldl_nil]

theorem readDenoted : read? bytes = some n ↔ Numeral bytes ∧ denoted bytes = n ∧ n < Word.size := by
  rw [readIff, numberDenoted]

example : [ascii "0", ascii "120", ascii "007", [], ascii "-5", ascii "12abc", ascii "99999999999999999999999"].map read? =
    [some 0, some 120, some 7, none, none, none, none] := by
  decide +kernel

theorem denotedLe (front : Bytes) (b : UInt8) (rest : Bytes) :
    denoted front * 10 + value b ≤ denoted (front ++ b :: rest) := by
  rw [← numberDenoted, ← numberDenoted, number, number, numberFrom, numberFrom, List.foldl_append, List.foldl_cons]
  exact numberFromLe _ rest

/- Some digit takes the number out of the word, while those in front of it make a word. A
product that is out of it makes a sum that is. -/
def Overflows (numeral : Bytes) : Prop :=
  ∃ front b rest, numeral = front ++ b :: rest ∧ denoted front < Word.size ∧
    Word.size ≤ denoted front * 10 + value b

theorem overflowsIff : Overflows bytes ↔ Word.size ≤ denoted bytes := by
  constructor
  · rintro ⟨front, b, rest, rfl, _, large⟩
    exact Nat.le_trans large (denotedLe front b rest)
  · intro large
    induction bytes using List.reverseRecOn with
    | nil => exact absurd large (by decide)
    | append_singleton front b ih =>
      by_cases word : denoted front < Word.size
      · exact ⟨front, b, [], rfl, word, denotedSnoc front b ▸ large⟩
      · obtain ⟨first, c, rest, parts, early⟩ := ih (Nat.le_of_not_lt word)
        exact ⟨first, c, rest ++ [b], by rw [parts, List.append_assoc, List.cons_append], early⟩

theorem readNothing (numeral : Numeral bytes) : read? bytes = none ↔ Overflows bytes := by
  rw [overflowsIff, Option.eq_none_iff_forall_ne_some, ← Nat.not_lt]
  constructor
  · exact fun nothing word => nothing _ (readDenoted.mpr ⟨numeral, rfl, word⟩)
  · rintro large n read
    obtain ⟨_, rfl, word⟩ := readDenoted.mp read
    exact large word

theorem numeralNot : ¬ Numeral bytes ↔ bytes = [] ∨ ∃ b ∈ bytes, Byte.isDigit b = false := by
  simp only [Numeral, not_and_or, not_not, not_forall, Bool.not_eq_true, exists_prop]

end Decimal

namespace Draft
variable {limits : Limits} {value buffer : Bytes} {n : Nat} {d : Draft}

def lengthNoted (d : Draft) : Draft := { d with fields := d.fields.set .contentLength d.value }

theorem acceptLength (sliced : d.value.slice? buffer = some value) : d.accept limits .contentLength buffer =
    match announcedLength limits value with
    | .ok length => ({ d.lengthNoted with contentLength := length }, none)
    | .error fault => (d.lengthNoted, some fault) := by
  simp only [accept, sliced, Field.treatment, treat]
  rfl

theorem acceptTaken (sliced : d.value.slice? buffer = some value) :
    d.accept limits .contentLength buffer = ({ d.lengthNoted with contentLength := n }, none) ↔
      announcedLength limits value = .ok n := by
  rw [acceptLength sliced]
  cases announcedLength limits value with
  | ok length =>
    simp only [Prod.mk.injEq, and_true, Except.ok.injEq]
    constructor
    · exact congrArg Draft.contentLength
    · rintro rfl
      rfl
  | error fault => simp

theorem acceptRefused {fault : Fault} (sliced : d.value.slice? buffer = some value) :
    d.accept limits .contentLength buffer = (d.lengthNoted, some fault) ↔
      announcedLength limits value = .error fault := by
  rw [acceptLength sliced]
  cases announcedLength limits value with
  | ok length => simp
  | error told => simp

theorem refusedNoted (sliced : d.value.slice? buffer = some value)
    (refused : (d.accept limits .contentLength buffer).2 ≠ none) :
    (d.accept limits .contentLength buffer).1 = d.lengthNoted := by
  rw [acceptLength sliced] at refused ⊢
  cases announced : announcedLength limits value with
  | ok length => simp [announced] at refused
  | error fault => rfl

/-- A numeral is read as what its digits denote, if that is a word: no sum that went round is
ever taken. A line that is refused leaves the length of an earlier one as it was. -/
theorem lengthDecided (limits : Limits) (word : limits.bodyLimit < Word.size) (value : Bytes) :
    let denoted := Decimal.denoted value
    (∀ n, Decimal.read? value = some n ↔ Decimal.Numeral value ∧ denoted = n ∧ n < Word.size) ∧
      Decimal.read? value = (Decimal.readWords? value).map UInt64.toNat ∧
      (Decimal.Numeral value → (Decimal.read? value = none ↔ Decimal.Overflows value)) ∧
      ∀ (d : Draft) (buffer : Bytes), d.value.slice? buffer = some value →
        let noted := { d with fields := d.fields.set .contentLength d.value }
        let after := d.accept limits .contentLength buffer
        (∀ n, after = ({ noted with contentLength := n }, none) ↔
          Decimal.Numeral value ∧ denoted = n ∧ 0 < n ∧ n ≤ limits.bodyLimit) ∧
        (after = (noted, some .bodyTooLarge) ↔
          Decimal.Numeral value ∧ limits.bodyLimit < denoted ∧ denoted < Word.size) ∧
        (after = (noted, some .invalidContentLength) ↔
          value = [] ∨ (∃ b ∈ value, Byte.isDigit b = false) ∨ denoted = 0 ∨ Word.size ≤ denoted) ∧
        (after.2 ≠ none → after.1 = noted ∧ after.1.contentLength = d.contentLength) := by
  intro denoted
  refine ⟨fun n => Decimal.readDenoted, Decimal.readWords value, Decimal.readNothing, ?_⟩
  intro d buffer sliced noted after
  refine ⟨fun n => ?_, ?_, ?_, fun refused => ?_⟩
  · refine (acceptTaken sliced).trans (announcedTaken.trans ?_)
    rw [Decimal.readDenoted]
    constructor
    · rintro ⟨⟨numeral, same, _⟩, positive, within⟩
      exact ⟨numeral, same, positive, within⟩
    · rintro ⟨numeral, same, positive, within⟩
      exact ⟨⟨numeral, same, Nat.lt_of_le_of_lt within word⟩, positive, within⟩
  · refine (acceptRefused sliced).trans (announcedBeyond.trans ?_)
    simp only [Decimal.readDenoted]
    constructor
    · rintro ⟨_, ⟨numeral, rfl, inWord⟩, beyond⟩
      exact ⟨numeral, beyond, inWord⟩
    · rintro ⟨numeral, beyond, inWord⟩
      exact ⟨denoted, ⟨numeral, rfl, inWord⟩, beyond⟩
  · refine (acceptRefused sliced).trans (announcedInvalid.trans ?_)
    rw [← or_assoc, ← Decimal.numeralNot]
    simp only [Decimal.readDenoted]
    constructor
    · intro onlyZero
      by_cases numeral : Decimal.Numeral value
      · by_cases inWord : denoted < Word.size
        · exact .inr (.inl (onlyZero _ ⟨numeral, rfl, inWord⟩))
        · exact .inr (.inr (Nat.le_of_not_lt inWord))
      · exact .inl numeral
    · rintro reason n ⟨numeral, rfl, inWord⟩
      rcases reason with other | zero | large
      · exact absurd numeral other
      · exact zero
      · exact absurd inWord (Nat.not_lt.mpr large)
  · have same : after.1 = noted := refusedNoted sliced refused
    exact ⟨same, by rw [same]⟩

theorem lengthDecidedAtLargest :
    let largest := ascii "00018446744073709551615"
    let next := ascii "00018446744073709551616"
    let wide : Limits := { bodyLimit := Word.size - 1 }
    let d : Draft := { value := ⟨0, 23⟩, contentLength := 7 }
    let noted : Draft := { d with fields := [(.contentLength, ⟨0, 23⟩)] }
    wide.bodyLimit < Word.size ∧ ({} : Limits).bodyLimit < Word.size ∧
      d.value.slice? largest = some largest ∧ d.value.slice? next = some next ∧
      Decimal.read? largest = some (Word.size - 1) ∧ Decimal.read? next = none ∧
      d.accept wide .contentLength largest = ({ noted with contentLength := Word.size - 1 }, none) ∧
      d.accept {} .contentLength largest = (noted, some .bodyTooLarge) ∧
      d.accept wide .contentLength next = (noted, some .invalidContentLength) := by
  intro largest next wide d noted
  have word : wide.bodyLimit < Word.size := by decide +kernel
  have usual : ({} : Limits).bodyLimit < Word.size := by decide +kernel
  have largestSliced : d.value.slice? largest = some largest := by decide +kernel
  have nextSliced : d.value.slice? next = some next := by decide +kernel
  have numeral : Decimal.Numeral largest ∧ Decimal.Numeral next := by decide +kernel
  have denoted : Decimal.denoted largest = Word.size - 1 ∧ Decimal.denoted next = Word.size := by decide +kernel
  have positive : 0 < Word.size - 1 ∧ ({} : Limits).bodyLimit < Word.size - 1 ∧ Word.size - 1 < Word.size := by
    decide +kernel
  have overflows : Decimal.Overflows next := Decimal.overflowsIff.mpr (Nat.le_of_eq denoted.2.symm)
  obtain ⟨read, _, _, acts⟩ := lengthDecided wide word largest
  obtain ⟨_, _, _, actsUsual⟩ := lengthDecided {} usual largest
  obtain ⟨_, _, nothing, actsNext⟩ := lengthDecided wide word next
  obtain ⟨taken, _⟩ := acts d largest largestSliced
  obtain ⟨_, tooLarge, _⟩ := actsUsual d largest largestSliced
  obtain ⟨_, _, invalid, _⟩ := actsNext d next nextSliced
  refine ⟨word, usual, largestSliced, nextSliced, ?_, (nothing numeral.2).mpr overflows, ?_, ?_, ?_⟩
  · exact (read _).mpr ⟨numeral.1, denoted.1, positive.2.2⟩
  · exact (taken _).mpr ⟨numeral.1, denoted.1, positive.1, Nat.le_refl _⟩
  · exact tooLarge.mpr ⟨numeral.1, denoted.1 ▸ positive.2.1, denoted.1 ▸ positive.2.2⟩
  · exact invalid.mpr (.inr (.inr (.inr (Nat.le_of_eq denoted.2.symm))))

end Draft
end StaticHttp
