import Mathlib.Data.List.Forall2
import StaticHttp.Draft.Headers
import StaticHttp.Proofs.Lookup
/-! Names in any letter case. Two names are alike if their bytes are, one by one, the same or
the two cases of one of the 26 letters. The table of lower case folds no other bytes together,
and a name that was folded into a room of fixed size and looked up under its hash is known as
what trying the listed names one after the other makes of it. -/
namespace StaticHttp

def Byte.Alike (a b : UInt8) : Prop :=
  a = b ∨ (isUpper a = true ∧ b = a + 0x20) ∨ (isUpper b = true ∧ a = b + 0x20)

theorem Byte.lowerAlike (a b : UInt8) : lower a = lower b ↔ Alike a b := by
  have small : a.toNat < 256 ∧ b.toNat < 256 := ⟨a.toNat_lt, b.toNat_lt⟩
  simp only [lower, Alike, isUpper, Bool.and_eq_true, decide_eq_true_eq, UInt8.le_iff_toNat_le, ← UInt8.toNat_inj]
  split <;> split <;> simp only [UInt8.toNat_add, UInt8.reduceToNat] at * <;> omega

namespace Bytes
variable {left right : Bytes}

def Alike (left right : Bytes) : Prop := List.Forall₂ Byte.Alike left right

theorem sameLettersAlike : left.sameLetters right = true ↔ Alike left right := by
  rw [sameLettersIff, ← List.forall₂_eq_eq_eq, fold, fold, List.forall₂_map_left_iff, List.forall₂_map_right_iff]
  simp only [Byte.lowerAlike, Alike]

instance : Decidable (Alike left right) := decidable_of_iff _ sameLettersAlike

theorem sameLettersDecided (left right : Bytes) : left.sameLetters right = decide (Alike left right) := by
  rw [Bool.eq_iff_iff, sameLettersAlike, decide_eq_true_eq]

end Bytes

namespace Field

def sought (name : Bytes) : Option Field := all.find? fun f => name.Alike f.key

theorem soughtHashed (hash : Bytes → Nat) (requested : Nat) (name : Bytes) :
    (name.foldWithin longestName).bind
      ((ChainTable.empty hash requested).insertAll (all.map fun f => (f.key, f))).find? = sought name := by
  simp only [findSearched, sought, Bytes.sameLettersDecided]

theorem soughtName (hash : Bytes → Nat) (name : Bytes) : ofName? hash name = sought name := soughtHashed hash 64 name

theorem soughtIff {name : Bytes} {f : Field} : sought name = some f ↔ name.Alike f.key := by
  rw [← soughtName fun _ => 0, ofNameIff, Bytes.sameLettersAlike]

end Field

namespace Mime

def sought (extension : Bytes) : String :=
  ((types.find? fun t => extension.Alike (ascii t.1)).map Prod.snd).getD "text/html"

theorem soughtHashed (hash : Bytes → Nat) (requested : Nat) (extension : Bytes) :
    ((extension.foldWithin longestExtension).bind
      ((ChainTable.empty hash requested).insertAll (types.map fun t => (ascii t.1, t.2))).find?).getD fallback =
        sought extension := by
  simp only [findSearched, sought, Bytes.sameLettersDecided, fallback]

theorem soughtExtension (hash : Bytes → Nat) (extension : Bytes) : ofExtension hash extension = sought extension :=
  soughtHashed hash 64 extension

theorem soughtOnly {extension : Bytes} {t : String × String} (listed : t ∈ types)
    (alike : extension.Alike (ascii t.1)) : sought extension = t.2 := by
  have found := (plain.find (fun _ => 0) 64).mpr
    ⟨ascii t.1, List.mem_map.mpr ⟨t, listed, rfl⟩, Bytes.sameLettersAlike.mpr alike⟩
  rw [← soughtExtension fun _ => 0, ofExtension, table, found, Option.getD_some]

end Mime

theorem knownInAnyCase (limits : Limits) (hash : Bytes → Nat) (name : Bytes) :
    let fields := (ChainTable.empty hash 64).insertAll (Field.all.map fun f => (f.key, f))
    let types := (ChainTable.empty hash 64).insertAll (Mime.types.map fun t => (ascii t.1, t.2))
    (∀ b, Byte.lookedUp b = if Byte.isUpper b then b + 0x20 else b) ∧
      (name.foldWithin Field.longestName).bind fields.find? = Field.sought name ∧
      (∀ f, Field.sought name = some f ↔ name.Alike f.key) ∧
      (∀ (d : Draft) buffer, d.name.slice? buffer = some name → d.applyLine hash limits buffer =
        match Field.sought name with
        | some f => d.accept limits f buffer
        | none => (d, none)) ∧
      ((name.foldWithin Mime.longestExtension).bind types.find?).getD Mime.fallback = Mime.sought name ∧
      Mime.ofExtension hash name = Mime.sought name ∧
      ∀ t ∈ Mime.types, name.Alike (ascii t.1) → Mime.sought name = t.2 := by
  intro fields types
  refine ⟨Byte.lookedUpLower, Field.soughtHashed hash 64 name, fun f => Field.soughtIff, ?_,
    Mime.soughtHashed hash 64 name, Mime.soughtExtension hash name, fun t listed alike => Mime.soughtOnly listed alike⟩
  intro d buffer named
  cases known : Field.sought name with
  | some f => simp only [Draft.applyLine, named, Field.soughtName, known]
  | none => simp only [Draft.applyLine, named, Field.soughtName, known]

theorem knownInOneChain :
    let buffer := ascii "cOnTeNt-LeNgTh: 12"
    let d : Draft := { name := ⟨0, 14⟩, value := ⟨16, 2⟩ }
    d.name.slice? buffer = some (ascii "cOnTeNt-LeNgTh") ∧
      d.applyLine (fun _ => 0) {} buffer = d.accept {} .contentLength buffer ∧
      (d.accept {} .contentLength buffer).1.contentLength = 12 ∧
      Mime.ofExtension (fun _ => 0) (ascii "WoFF2") = "font/woff2" ∧ Mime.ofExtension (fun _ => 0) (ascii "[s") = "text/html" := by
  intro buffer d
  have named : d.name.slice? buffer = some (ascii "cOnTeNt-LeNgTh") := by decide +kernel
  obtain ⟨_, _, known, acts, _⟩ := knownInAnyCase {} (fun _ => 0) (ascii "cOnTeNt-LeNgTh")
  obtain ⟨_, _, _, _, _, found, only⟩ := knownInAnyCase {} (fun _ => 0) (ascii "WoFF2")
  have field : Field.sought (ascii "cOnTeNt-LeNgTh") = some .contentLength := (known _).mpr (by decide +kernel)
  have line := acts d buffer named
  rw [field] at line
  have type := only ("woff2", "font/woff2") (by decide +kernel) (by decide +kernel)
  exact ⟨named, line, by decide +kernel, found.trans type, by decide +kernel⟩

end StaticHttp
