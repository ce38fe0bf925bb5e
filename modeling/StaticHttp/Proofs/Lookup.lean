import StaticHttp.Coding
import StaticHttp.Field
import StaticHttp.Mime
import StaticHttp.Proofs.Chains
/-! What is found under a name. The keys are in lower case and none hides another, so a
name is known if it is one of the listed ones up to letter case. -/
namespace StaticHttp

namespace Bytes

theorem foldWithinSome {room : Nat} {bytes folded : Bytes} :
    bytes.foldWithin room = some folded ↔ bytes.length ≤ room ∧ folded = bytes.fold := by
  rw [foldWithin, mapLookedUp]
  split
  · rename_i fits
    simp [fits, eq_comm]
  · rename_i long
    simp [long]

end Bytes

namespace ChainTable
variable {V : Type} {entries : List (Bytes × V)} {room : Nat}

theorem findListed (hash : Bytes → Nat) (requested : Nat) (entries : List (Bytes × V)) (key : Bytes) :
    ((empty hash requested).insertAll entries).find? key = entries.reverse.lookup key :=
  (listedHolds hash requested entries).find key

structure Plain (room : Nat) (entries : List (Bytes × V)) : Prop where
  lower : ∀ entry ∈ entries, Bytes.fold entry.1 = entry.1
  fits : ∀ entry ∈ entries, entry.1.length ≤ room
  distinct : (entries.map Prod.fst).Nodup

theorem Plain.lookup (plain : Plain room entries) {key : Bytes} {value : V} :
    entries.reverse.lookup key = some value ↔ (key, value) ∈ entries := by
  rw [lookupNewest]
  constructor
  · rintro ⟨before, after, rfl, _⟩
    simp
  · intro inside
    obtain ⟨before, after, parts⟩ := List.append_of_mem inside
    refine ⟨before, after, parts, fun entry later same => ?_⟩
    have distinct := plain.distinct
    rw [parts, List.map_append, List.map_cons] at distinct
    have once := (List.nodup_cons.mp (List.nodup_append.mp distinct).2.1).1
    exact once (List.mem_map.mpr ⟨entry, later, same⟩)

theorem Plain.find (plain : Plain room entries) (hash : Bytes → Nat) (requested : Nat) {name : Bytes} {value : V} :
    (name.foldWithin room).bind ((empty hash requested).insertAll entries).find? = some value ↔
      ∃ key, (key, value) ∈ entries ∧ name.sameLetters key = true := by
  simp only [Option.bind_eq_some_iff, Bytes.foldWithinSome, findListed, plain.lookup, Bytes.sameLettersIff]
  constructor
  · rintro ⟨_, ⟨_, rfl⟩, inside⟩
    exact ⟨name.fold, inside, (plain.lower _ inside).symm⟩
  · rintro ⟨key, inside, same⟩
    have folded : name.fold = key := same.trans (plain.lower _ inside)
    refine ⟨key, ⟨?_, folded.symm⟩, inside⟩
    rw [← Bytes.foldLength, folded]
    exact plain.fits _ inside

theorem Plain.search (plain : Plain room entries) (hash : Bytes → Nat) (requested : Nat) (name : Bytes) :
    (name.foldWithin room).bind ((empty hash requested).insertAll entries).find? =
      (entries.find? fun entry => name.sameLetters entry.1).map Prod.snd := by
  cases searched : entries.find? fun entry => name.sameLetters entry.1 with
  | some entry =>
    have letters : name.sameLetters entry.1 = true := by simpa using List.find?_some searched
    exact (plain.find hash requested).mpr ⟨entry.1, List.mem_of_find?_eq_some searched, letters⟩
  | none =>
    rw [Option.map_none, Option.eq_none_iff_forall_ne_some]
    intro value found
    obtain ⟨key, inside, letters⟩ := (plain.find hash requested).mp found
    exact List.find?_eq_none.mp searched (key, value) inside letters

end ChainTable

namespace Field

theorem listed (f : Field) : f ∈ all := by
  cases f <;> decide

theorem plain : ChainTable.Plain longestName (all.map fun f => (f.key, f)) := by
  refine ⟨?_, ?_, ?_⟩
  all_goals decide +kernel

theorem findSearched (hash : Bytes → Nat) (requested : Nat) (name : Bytes) :
    (name.foldWithin longestName).bind
        ((ChainTable.empty hash requested).insertAll (all.map fun f => (f.key, f))).find? =
      all.find? fun f => name.sameLetters f.key := by
  rw [plain.search, List.find?_map, Option.map_map]
  exact Option.map_id'

theorem ofNameIff {hash : Bytes → Nat} {name : Bytes} {f : Field} : ofName? hash name = some f ↔ name.sameLetters f.key = true := by
  refine (plain.find hash 64).trans ⟨?_, fun same => ?_⟩
  · rintro ⟨key, inside, same⟩
    obtain ⟨g, _, entry⟩ := List.mem_map.mp inside
    cases entry
    exact same
  · exact ⟨f.key, List.mem_map.mpr ⟨f, listed f, rfl⟩, same⟩

end Field

namespace Coding

theorem tokenFold (c : Coding) : Bytes.fold c.token = c.token := Bytes.foldFold _

theorem tokenFits (c : Coding) : c.token.length ≤ longest := by
  cases c <;> decide

theorem ofValueIff {value : Bytes} {c : Coding} : ofValue? value = some c ↔ value.sameLetters c.token = true := by
  simp only [ofValue?, bind, Option.bind_eq_some_iff, Bytes.foldWithinSome, Bytes.sameLettersIff, tokenFold]
  constructor
  · rintro ⟨_, ⟨_, rfl⟩, found⟩
    have same := List.find?_some found
    exact (eq_of_beq same).symm
  · intro same
    refine ⟨value.fold, ⟨?_, rfl⟩, ?_⟩
    · rw [← Bytes.foldLength, same]
      exact tokenFits c
    · rw [same]
      cases c <;> decide

end Coding

namespace Mime

theorem plain : ChainTable.Plain longestExtension (types.map fun t => (ascii t.1, t.2)) := by
  refine ⟨?_, ?_, ?_⟩
  all_goals decide +kernel

theorem findSearched (hash : Bytes → Nat) (requested : Nat) (extension : Bytes) :
    (extension.foldWithin longestExtension).bind
        ((ChainTable.empty hash requested).insertAll (types.map fun t => (ascii t.1, t.2))).find? =
      (types.find? fun t => extension.sameLetters (ascii t.1)).map Prod.snd := by
  rw [plain.search, List.find?_map, Option.map_map]
  rfl

theorem ofExtensionSearched (hash : Bytes → Nat) (extension : Bytes) : ofExtension hash extension =
    ((types.find? fun t => extension.sameLetters (ascii t.1)).map Prod.snd).getD fallback :=
  congrArg (Option.getD · fallback) (findSearched hash 64 extension)

theorem ofExtensionListed (hash : Bytes → Nat) (extension : Bytes) : ofExtension hash extension ∈ fallback :: types.map Prod.snd := by
  rw [ofExtensionSearched]
  cases searched : types.find? fun t => extension.sameLetters (ascii t.1) with
  | none => exact List.mem_cons_self
  | some t => exact List.mem_cons_of_mem _ (List.mem_map.mpr ⟨t, List.mem_of_find?_eq_some searched, rfl⟩)

end Mime
end StaticHttp
