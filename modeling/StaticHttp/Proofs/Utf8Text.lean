import StaticHttp.Text.Utf8
/-! The check of UTF-8 against what UTF-8 is: it passes the encodings of texts and
nothing else. A unit that is whole is the encoding of the character it is read as. -/
namespace StaticHttp.Utf8

/- The lead bytes, by the number of bytes that follow. The first of these is bounded where the
character would otherwise be a surrogate, out of range, or written longer than it needs to be. -/
inductive Leads (lead : UInt8) : Option (UInt8 × UInt8 × Nat) → Prop where
  | two (lower : 0xC2 ≤ lead.toNat) (upper : lead.toNat ≤ 0xDF) : Leads lead (some (0x80, 0xBF, 1))
  | three {low high : UInt8} (lower : 0xE0 ≤ lead.toNat) (upper : lead.toNat ≤ 0xEF)
      (least : lead.toNat = 0xE0 ∧ low.toNat = 0xA0 ∨ lead.toNat ≠ 0xE0 ∧ low.toNat = 0x80)
      (most : lead.toNat = 0xED ∧ high.toNat = 0x9F ∨ lead.toNat ≠ 0xED ∧ high.toNat = 0xBF) : Leads lead (some (low, high, 2))
  | four {low high : UInt8} (lower : 0xF0 ≤ lead.toNat) (upper : lead.toNat ≤ 0xF4)
      (least : lead.toNat = 0xF0 ∧ low.toNat = 0x90 ∨ lead.toNat ≠ 0xF0 ∧ low.toNat = 0x80)
      (most : lead.toNat = 0xF4 ∧ high.toNat = 0x8F ∨ lead.toNat ≠ 0xF4 ∧ high.toNat = 0xBF) : Leads lead (some (low, high, 3))
  | none (outside : lead.toNat < 0xC2 ∨ 0xF4 < lead.toNat) : Leads lead none

theorem leads (lead : UInt8) : Leads lead (follow lead) := by
  unfold follow
  repeat' split
  all_goals
    simp only [Bool.and_eq_true, decide_eq_true_eq, UInt8.le_iff_toNat_le, ← UInt8.toNat_inj, UInt8.reduceToNat] at *
  · exact .two (by omega) (by omega)
  · exact .three (by omega) (by omega) (by simp; omega) (by simp; omega)
  · exact .three (by omega) (by omega) (by simp; omega) (by simp; omega)
  · exact .three (by omega) (by omega) (by simp; omega) (by simp; omega)
  · exact .four (by omega) (by omega) (by simp; omega) (by simp; omega)
  · exact .four (by omega) (by omega) (by simp; omega) (by simp; omega)
  · exact .four (by omega) (by omega) (by simp; omega) (by simp; omega)
  · exact .none (by omega)

variable {bits taken n k : Nat} {low high lead b : UInt8} {rest : Bytes} {c : Char}

theorem collectNext (lower : low.toNat ≤ b.toNat) (upper : b.toNat ≤ high.toNat) :
    collect bits low high taken (n + 1) (b :: rest) =
      collect (bits * 64 + b.toNat % 64) 0x80 0xBF (taken + 1) n rest := by
  have inside : (low ≤ b && b ≤ high) = true := by simp [UInt8.le_iff_toNat_le, lower, upper]
  simp only [collect, inside, if_true]

theorem collectSome (whole : collect bits low high taken (n + 1) rest = (some c, k)) :
    ∃ b others, rest = b :: others ∧ low.toNat ≤ b.toNat ∧ b.toNat ≤ high.toNat ∧
      collect (bits * 64 + b.toNat % 64) 0x80 0xBF (taken + 1) n others = (some c, k) := by
  cases rest with
  | nil => cases whole
  | cons b others =>
    simp only [collect] at whole
    split at whole
    · rename_i inside
      simp only [Bool.and_eq_true, decide_eq_true_eq, UInt8.le_iff_toNat_le] at inside
      exact ⟨b, others, rfl, inside.1, inside.2, whole⟩
    · cases whole

inductive Spelled (v : Nat) : Bytes → Prop where
  | one {a : UInt8} (short : v ≤ 0x7F) (first : a.toNat = v) : Spelled v [a]
  | two {a b : UInt8} (long : 0x7F < v) (short : v ≤ 0x7FF) (first : a.toNat = v / 64 + 0xC0)
      (second : b.toNat = v % 64 + 0x80) : Spelled v [a, b]
  | three {a b d : UInt8} (long : 0x7FF < v) (short : v ≤ 0xFFFF) (first : a.toNat = v / 4096 + 0xE0)
      (second : b.toNat = v / 64 % 64 + 0x80) (third : d.toNat = v % 64 + 0x80) : Spelled v [a, b, d]
  | four {a b d e : UInt8} (long : 0xFFFF < v) (short : v < 0x110000) (first : a.toNat = v / 262144 + 0xF0)
      (second : b.toNat = v / 4096 % 64 + 0x80) (third : d.toNat = v / 64 % 64 + 0x80)
      (fourth : e.toNat = v % 64 + 0x80) : Spelled v [a, b, d, e]

theorem spelled (c : Char) : Spelled c.val.toNat (String.utf8EncodeChar c) := by
  obtain ⟨v, told⟩ : ∃ v, c.val.toNat = v := ⟨_, rfl⟩
  have valid : v < 0xD800 ∨ 0xDFFF < v ∧ v < 0x110000 := told ▸ c.valid
  simp only [String.utf8EncodeChar, told]
  split
  · exact .one (by omega) (by simp; omega)
  · split
    · exact .two (by omega) (by omega) (by simp; omega) (by simp; omega)
    · split
      · exact .three (by omega) (by omega) (by simp; omega) (by simp; omega) (by simp; omega)
      · exact .four (by omega) (by omega) (by simp; omega) (by simp; omega) (by simp; omega) (by simp; omega)

theorem Spelled.unique {v : Nat} {bytes other : Bytes} (one : Spelled v bytes) (two : Spelled v other) : bytes = other := by
  cases one
  all_goals
    cases two
    all_goals
      first
      | omega
      | simp only [List.cons.injEq, and_true, ← UInt8.toNat_inj]
        omega

theorem unitSpelled {v : Nat} (valid : v < 0xD800 ∨ 0xDFFF < v ∧ v < 0x110000) {lead : UInt8} {tail : Bytes}
    (spelled : Spelled v (lead :: tail)) (rest : Bytes) : unit lead (tail ++ rest) = (some (Char.ofNat v), tail.length) := by
  have row := leads lead
  cases spelled with
  | one short first =>
    have plain : lead ≤ 0x7F := UInt8.le_iff_toNat_le.mpr (by rw [first]; exact short)
    simp only [unit, if_pos plain, first, List.length_nil]
  | @two a b long short first second =>
    have led : ¬ lead ≤ 0x7F := by simp [UInt8.le_iff_toNat_le]; omega
    simp only [unit, if_neg led]
    generalize follow lead = found at row
    cases row with
    | two lower upper =>
      have number : leadBits lead 1 * 64 + b.toNat % 64 = v := by simp [leadBits]; omega
      simp only [List.cons_append, List.nil_append]
      rw [collectNext (by simp; omega) (by simp; omega), number]
      rfl
    | three => omega
    | four => omega
    | none => omega
  | @three a b d long short first second third =>
    have led : ¬ lead ≤ 0x7F := by simp [UInt8.le_iff_toNat_le]; omega
    simp only [unit, if_neg led]
    generalize follow lead = found at row
    cases row with
    | three lower upper least most =>
      have number : (leadBits lead 2 * 64 + b.toNat % 64) * 64 + d.toNat % 64 = v := by simp [leadBits]; omega
      simp only [List.cons_append, List.nil_append]
      rw [collectNext (by omega) (by omega), collectNext (by simp; omega) (by simp; omega), number]
      rfl
    | two => omega
    | four => omega
    | none => omega
  | @four a b d e long short first second third fourth =>
    have led : ¬ lead ≤ 0x7F := by simp [UInt8.le_iff_toNat_le]; omega
    simp only [unit, if_neg led]
    generalize follow lead = found at row
    cases row with
    | four lower upper least most =>
      have number : ((leadBits lead 3 * 64 + b.toNat % 64) * 64 + d.toNat % 64) * 64 + e.toNat % 64 = v := by
        simp [leadBits]
        omega
      simp only [List.cons_append, List.nil_append]
      rw [collectNext (by omega) (by omega), collectNext (by simp; omega) (by simp; omega),
        collectNext (by simp; omega) (by simp; omega), number]
      rfl
    | two => omega
    | three => omega
    | none => omega

theorem charOf {v : Nat} (valid : v < 0xD800 ∨ 0xDFFF < v ∧ v < 0x110000) : (Char.ofNat v).toNat = v := by
  have valid : v.isValidChar := valid
  rw [Char.ofNat, dif_pos valid]
  exact UInt32.toNat_ofNatLT

theorem unitWhole (whole : unit lead rest = (some c, k)) : k ≤ rest.length ∧ Spelled c.toNat (lead :: rest.take k) := by
  have row := leads lead
  unfold unit at whole
  split at whole
  · rename_i plain
    simp only [UInt8.le_iff_toNat_le, UInt8.reduceToNat] at plain
    cases whole
    exact ⟨Nat.zero_le _, .one (by rw [charOf (by omega)]; exact plain) (charOf (by omega)).symm⟩
  · generalize follow lead = found at row whole
    cases row with
    | two lower upper =>
      obtain ⟨b, others, rfl, least, most, done⟩ := collectSome whole
      simp only [UInt8.reduceToNat] at least most
      obtain ⟨v, told⟩ : ∃ v, lead.toNat % 32 * 64 + b.toNat % 64 = v := ⟨_, rfl⟩
      obtain ⟨rfl, rfl⟩ : Char.ofNat v = c ∧ 1 = k := by simpa [collect, leadBits, told] using done
      have number : (Char.ofNat v).toNat = v := charOf (by omega)
      refine ⟨by simp, ?_⟩
      rw [number]
      exact .two (by omega) (by omega) (by omega) (by omega)
    | three lower upper first last =>
      obtain ⟨b, others, rfl, least, most, further⟩ := collectSome whole
      obtain ⟨d, rest, rfl, low, high, done⟩ := collectSome further
      simp only [UInt8.reduceToNat] at low high
      obtain ⟨v, told⟩ : ∃ v, (lead.toNat % 16 * 64 + b.toNat % 64) * 64 + d.toNat % 64 = v := ⟨_, rfl⟩
      obtain ⟨rfl, rfl⟩ : Char.ofNat v = c ∧ 2 = k := by simpa [collect, leadBits, told] using done
      have number : (Char.ofNat v).toNat = v := charOf (by omega)
      refine ⟨by simp, ?_⟩
      rw [number]
      exact .three (by omega) (by omega) (by omega) (by omega) (by omega)
    | four lower upper first last =>
      obtain ⟨b, others, rfl, least, most, further⟩ := collectSome whole
      obtain ⟨d, rest, rfl, low, high, onward⟩ := collectSome further
      obtain ⟨e, rest, rfl, below, above, done⟩ := collectSome onward
      simp only [UInt8.reduceToNat] at low high below above
      obtain ⟨v, told⟩ : ∃ v, ((lead.toNat % 8 * 64 + b.toNat % 64) * 64 + d.toNat % 64) * 64 + e.toNat % 64 = v :=
        ⟨_, rfl⟩
      obtain ⟨rfl, rfl⟩ : Char.ofNat v = c ∧ 3 = k := by simpa [collect, leadBits, told] using done
      have number : (Char.ofNat v).toNat = v := charOf (by omega)
      refine ⟨by simp, ?_⟩
      rw [number]
      exact .four (by omega) (by omega) (by omega) (by omega) (by omega) (by omega)
    | none => cases whole

theorem unitsSkip (skip : Nat) (bytes : Bytes) : units skip bytes = units 0 (bytes.drop skip) := by
  induction skip generalizing bytes with
  | zero => rfl
  | succ skip ih =>
    cases bytes with
    | nil => rfl
    | cons b rest => exact ih rest

theorem validCons (lead : UInt8) (rest : Bytes) :
    valid (lead :: rest) = ((unit lead rest).1.isSome && valid (rest.drop (unit lead rest).2)) := by
  simp only [valid, units, List.all_cons, unitsSkip (unit lead rest).2]

theorem validText (text : List Char) : valid (text.flatMap String.utf8EncodeChar) = true := by
  induction text with
  | nil => rfl
  | cons c text ih =>
    have written := spelled c
    have some : String.utf8EncodeChar c ≠ [] := String.utf8EncodeChar_ne_nil
    obtain ⟨lead, tail, parts⟩ := List.exists_cons_of_ne_nil some
    rw [parts] at written
    have read := unitSpelled c.valid written (text.flatMap String.utf8EncodeChar)
    rw [List.flatMap_cons, parts, List.cons_append, validCons, read, List.drop_left, ih]
    rfl

theorem validSplits {bytes : Bytes} (passes : valid bytes = true) :
    ∃ text : List Char, bytes = text.flatMap String.utf8EncodeChar := by
  induction count : bytes.length using Nat.strongRecOn generalizing bytes with
  | ind n ih =>
    cases bytes with
    | nil => exact ⟨[], rfl⟩
    | cons lead rest =>
      rw [validCons, Bool.and_eq_true, Option.isSome_iff_exists] at passes
      obtain ⟨⟨c, first⟩, later⟩ := passes
      obtain ⟨k, read⟩ : ∃ k, unit lead rest = (some c, k) := ⟨_, Prod.ext first rfl⟩
      rw [read] at later
      have shorter : (rest.drop k).length < n := by
        simp only [List.length_drop, ← count, List.length_cons]
        omega
      obtain ⟨text, split⟩ := ih _ shorter later rfl
      have written : lead :: rest.take k = String.utf8EncodeChar c := (unitWhole read).2.unique (spelled c)
      refine ⟨c :: text, ?_⟩
      rw [List.flatMap_cons, ← written, ← split, List.cons_append, List.take_append_drop]

theorem validIff (bytes : Bytes) : valid bytes = true ↔ bytes.toByteArray.IsValidUTF8 := by
  constructor
  · intro passes
    obtain ⟨text, rfl⟩ := validSplits passes
    exact ⟨text, rfl⟩
  · rintro ⟨text, same⟩
    rw [List.toByteArray_inj.mp same]
    exact validText text

end StaticHttp.Utf8
