import StaticHttp.Decimal
/-! What decimal numerals denote, as numbers without a limit. Reading yields the
number where it fits in a word and nothing where it does not; writing yields a
numeral of the number. -/
namespace StaticHttp.Decimal

def Numeral (bytes : Bytes) : Prop := bytes ≠ [] ∧ ∀ b ∈ bytes, Byte.isDigit b = true

instance (bytes) : Decidable (Numeral bytes) :=
  have := List.decidableBAll (fun b => Byte.isDigit b = true) bytes
  inferInstanceAs (Decidable (_ ∧ _))

theorem valueSmall {b : UInt8} (digit : Byte.isDigit b = true) : value b < 10 := by
  simp only [Byte.isDigit, Bool.and_eq_true, decide_eq_true_eq, UInt8.le_iff_toNat_le, UInt8.reduceToNat] at digit
  simp only [value]
  omega

def numberFrom (sum : Nat) (bytes : Bytes) : Nat := bytes.foldl (fun n b => n * 10 + value b) sum

def number (bytes : Bytes) : Nat := numberFrom 0 bytes

theorem numberFromLe (sum : Nat) (bytes : Bytes) : sum ≤ numberFrom sum bytes := by
  induction bytes generalizing sum with
  | nil => exact Nat.le_refl sum
  | cons b rest ih => exact Nat.le_trans (by omega) (ih (sum * 10 + value b))

theorem readFromIff {sum n : Nat} (word : sum < Word.size) (bytes : Bytes) :
    readFrom sum bytes = some n ↔
      (∀ b ∈ bytes, Byte.isDigit b = true) ∧ numberFrom sum bytes = n ∧ n < Word.size := by
  induction bytes generalizing sum with
  | nil =>
    simp only [readFrom, numberFrom, List.foldl_nil, Option.some.injEq, List.not_mem_nil, false_imp_iff,
      implies_true, true_and]
    constructor
    · rintro rfl
      exact ⟨rfl, word⟩
    · exact And.left
  | cons b rest ih =>
    have grows : sum * 10 + value b ≤ numberFrom sum (b :: rest) := numberFromLe _ rest
    simp only [readFrom, Bool.and_eq_true, decide_eq_true_eq, List.forall_mem_cons]
    constructor
    · intro read
      split at read
      · rename_i fits
        obtain ⟨digits, same, small⟩ := (ih fits.2).mp read
        exact ⟨⟨fits.1, digits⟩, same, small⟩
      · contradiction
    · rintro ⟨⟨digit, digits⟩, same, small⟩
      have fits : sum * 10 + value b < Word.size := by omega
      rw [if_pos ⟨digit, fits⟩]
      exact (ih fits).mpr ⟨digits, same, small⟩

theorem readIff {bytes : Bytes} {n : Nat} :
    read? bytes = some n ↔ Numeral bytes ∧ number bytes = n ∧ n < Word.size := by
  cases bytes with
  | nil => simp [read?, Numeral]
  | cons b rest =>
    rw [read?, readFromIff (by decide)]
    · simp [Numeral, number]
    · simp

theorem digitByte {d : Nat} (small : d < 10) : Byte.isDigit (digit d) = true ∧ value (digit d) = d := by
  revert d
  decide

theorem writeNumeral (n : Nat) : Numeral (write n) := by
  induction n using Nat.strongRecOn with
  | ind n ih =>
    unfold write
    split
    · rename_i small
      exact ⟨by simp, by simpa using (digitByte small).1⟩
    · have shorter := ih (n / 10) (by omega)
      refine ⟨by simp, ?_⟩
      intro b inside
      rcases List.mem_append.mp inside with front | last
      · exact shorter.2 b front
      · obtain rfl := List.mem_singleton.mp last
        exact (digitByte (Nat.mod_lt n (by decide))).1

theorem numberWrite (n : Nat) : number (write n) = n := by
  induction n using Nat.strongRecOn with
  | ind n ih =>
    unfold write
    split
    · rename_i small
      simpa [number, numberFrom] using (digitByte small).2
    · have shorter := ih (n / 10) (by omega)
      simp only [number, numberFrom, List.foldl_append, List.foldl_cons, List.foldl_nil] at shorter ⊢
      rw [shorter, (digitByte (Nat.mod_lt n (by decide))).2]
      omega

end StaticHttp.Decimal
