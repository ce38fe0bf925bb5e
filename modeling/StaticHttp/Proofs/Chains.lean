import StaticHttp.ChainTable
/-! What the chains of a table hold. An entry goes in front of the chain of its key and stays
there, so every chain lists the entries of its place with the newest in front, and the first
one under a key is the last that was put in. Which chain it is does not matter: equal keys
have one place, whatever the hash. -/
namespace StaticHttp.ChainTable

structure LeastPower (n count : Nat) : Prop where
  power : ∃ k, count = Nat.pow 2 k
  enough : n ≤ count
  least : ∀ k, n ≤ Nat.pow 2 k → count ≤ Nat.pow 2 k

theorem powerFromLeast (n : Nat) : LeastPower n (powerFrom n) := by
  unfold powerFrom
  split
  · rename_i small
    exact ⟨⟨0, rfl⟩, small, fun k _ => Nat.one_le_two_pow⟩
  · rename_i large
    have below : n - 1 < Nat.pow 2 ((n - 1).log2 + 1) := Nat.lt_log2_self
    refine ⟨⟨_, rfl⟩, by omega, fun k enough => ?_⟩
    have exponent : (n - 1).log2 < k := (Nat.log2_lt (by omega)).mpr (Nat.lt_of_lt_of_le (by omega) enough)
    exact Nat.pow_le_pow_right (by decide) exponent

variable {V : Type} {t : ChainTable V} {entries : List (Bytes × V)}

theorem placeInside (wide : 0 < t.width) (key : Bytes) : t.place key < t.width :=
  Nat.lt_of_le_of_lt Nat.and_le_right (Nat.sub_lt wide Nat.one_pos)

def inChain (t : ChainTable V) (place : Nat) (entry : Bytes × V) : Bool := t.place entry.1 == place

structure Holds (t : ChainTable V) (entries : List (Bytes × V)) : Prop where
  wide : 0 < t.width
  counted : t.size = entries.length
  chain : ∀ place < t.width, t.chains[place]? = some (entries.filter (t.inChain place)).reverse

theorem emptyWidth (hash : Bytes → Nat) (requested : Nat) :
    (empty hash requested : ChainTable V).width = chainCount requested := List.length_replicate

theorem emptyHolds (hash : Bytes → Nat) (requested : Nat) : (empty hash requested : ChainTable V).Holds [] := by
  refine ⟨?_, rfl, ?_⟩
  · rw [emptyWidth]
    exact Nat.le_trans (Nat.le_max_right requested 1) (powerFromLeast (max requested 1)).enough
  · intro place inside
    rw [emptyWidth] at inside
    exact List.getElem?_replicate_of_lt inside

theorem Holds.insert (holds : t.Holds entries) (key : Bytes) (value : V) :
    (t.insert key value).Holds (entries ++ [(key, value)]) := by
  refine ⟨by rw [insertWidth]; exact holds.wide, ?_, ?_⟩
  · simp [ChainTable.insert, holds.counted]
  · intro place inside
    rw [insertWidth] at inside
    have same : (t.insert key value).inChain place = t.inChain place := by
      funext entry
      simp only [inChain, insertPlace]
    rw [same, List.filter_append, List.reverse_append]
    simp only [ChainTable.insert, List.getElem?_modify, holds.chain place inside, Option.map_eq_map, Option.map_some]
    by_cases here : t.place key = place
    · simp [inChain, here]
    · simp [inChain, here]

theorem Holds.insertAll (holds : t.Holds entries) (more : List (Bytes × V)) :
    (t.insertAll more).Holds (entries ++ more) := by
  induction more generalizing t entries with
  | nil => simpa [ChainTable.insertAll] using holds
  | cons entry rest ih => simpa [ChainTable.insertAll] using ih (holds.insert entry.1 entry.2)

theorem listedHolds (hash : Bytes → Nat) (requested : Nat) (entries : List (Bytes × V)) :
    ((empty hash requested).insertAll entries).Holds entries :=
  (emptyHolds hash requested).insertAll entries

theorem insertAllWidth (t : ChainTable V) (entries : List (Bytes × V)) : (t.insertAll entries).width = t.width := by
  induction entries generalizing t with
  | nil => rfl
  | cons entry rest ih => exact (ih (t.insert entry.1 entry.2)).trans (insertWidth t entry.1 entry.2)

theorem lookupFilter {kept : Bytes × V → Bool} {key : Bytes} (keeps : ∀ value, kept (key, value) = true)
    (entries : List (Bytes × V)) : (entries.filter kept).lookup key = entries.lookup key := by
  induction entries with
  | nil => rfl
  | cons entry rest ih =>
    obtain ⟨name, value⟩ := entry
    by_cases same : key = name
    · subst same
      simp [keeps]
    · have other : (key == name) = false := by simpa using same
      rw [List.filter_cons, List.lookup_cons, other]
      split
      · rw [List.lookup_cons, other]
        exact ih
      · exact ih

theorem Holds.find (holds : t.Holds entries) (key : Bytes) : t.find? key = entries.reverse.lookup key := by
  rw [find?, holds.chain _ (placeInside holds.wide key), Option.getD_some, ← List.filter_reverse]
  exact lookupFilter (fun _ => by simp [inChain]) _

def Newest (entries : List (Bytes × V)) (key : Bytes) (value : V) : Prop :=
  ∃ before after, entries = before ++ (key, value) :: after ∧ ∀ entry ∈ after, entry.1 ≠ key

theorem lookupNewest {key : Bytes} {value : V} :
    entries.reverse.lookup key = some value ↔ Newest entries key value := by
  rw [List.lookup_eq_some_iff]
  constructor
  · rintro ⟨after, before, parts, newer⟩
    refine ⟨before.reverse, after.reverse, ?_, fun entry inside => ?_⟩
    · rw [← List.reverse_reverse entries, parts]
      simp
    · have other := newer entry (List.mem_reverse.mp inside)
      exact (bne_iff_ne.mp other).symm
  · rintro ⟨before, after, rfl, newer⟩
    refine ⟨after.reverse, before.reverse, by simp, fun entry inside => ?_⟩
    exact bne_iff_ne.mpr (newer entry (List.mem_reverse.mp inside)).symm

theorem lookupNothing {key : Bytes} : entries.reverse.lookup key = none ↔ ∀ entry ∈ entries, entry.1 ≠ key := by
  rw [List.lookup_eq_none_iff]
  simp only [List.mem_reverse, bne_iff_ne, ne_comm]

/-- Whatever the hash and however its chains are shared, a table is a map to the value put in
last. All entries are counted, hidden ones too. -/
theorem lastValueFound (hash : Bytes → Nat) (requested : Nat) (entries : List (Bytes × V)) :
    let t := (empty hash requested).insertAll entries
    (∀ key value, t.find? key = some value ↔ Newest entries key value) ∧
      (∀ key, t.find? key = none ↔ ∀ entry ∈ entries, entry.1 ≠ key) ∧
      t.size = entries.length ∧ (t.isEmpty = true ↔ entries = []) ∧
      LeastPower (max requested 1) t.width ∧ (∀ key, t.place key < t.width) ∧
      ∀ place < t.width, t.chains[place]? = some (entries.filter fun entry => t.place entry.1 == place).reverse := by
  intro t
  have holds : t.Holds entries := listedHolds hash requested entries
  have width : t.width = chainCount requested := (insertAllWidth _ entries).trans (emptyWidth hash requested)
  refine ⟨fun key value => ?_, fun key => ?_, holds.counted, ?_, width ▸ powerFromLeast _, placeInside holds.wide, holds.chain⟩
  · rw [holds.find, lookupNewest]
  · rw [holds.find, lookupNothing]
  · rw [isEmpty, beq_iff_eq, holds.counted, List.length_eq_zero_iff]

end StaticHttp.ChainTable
