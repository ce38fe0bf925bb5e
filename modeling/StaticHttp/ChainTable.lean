import StaticHttp.Bytes
import StaticHttp.Word
/-! A table from byte strings to values: a fixed number of chains, each with the
newest entry in front, so a repeated key hides its earlier value. What is found
does not depend on the hash, which only decides the chain. -/
namespace StaticHttp

structure ChainTable (V : Type) where
  hash : Bytes → Nat
  chains : List (List (Bytes × V))
  size : Nat

namespace ChainTable
variable {V : Type}

def powerFrom (n : Nat) : Nat := if n ≤ 1 then 1 else Nat.pow 2 ((n - 1).log2 + 1)

def chainCount (requested : Nat) : Nat := powerFrom (max requested 1)

def empty (hash : Bytes → Nat) (requested : Nat) : ChainTable V :=
  ⟨hash, List.replicate (chainCount requested) [], 0⟩

def width (t : ChainTable V) : Nat := t.chains.length

/- The width is a power of two, so its low bits say which chain it is. -/
def place (t : ChainTable V) (key : Bytes) : Nat := t.hash key &&& (t.width - 1)

def insert (t : ChainTable V) (key : Bytes) (value : V) : ChainTable V :=
  { t with
    chains := t.chains.modify (t.place key) ((key, value) :: ·)
    size := t.size + 1 }

def insertAll (t : ChainTable V) (entries : List (Bytes × V)) : ChainTable V :=
  entries.foldl (fun t entry => t.insert entry.1 entry.2) t

def find? (t : ChainTable V) (key : Bytes) : Option V :=
  ((t.chains[t.place key]?).getD []).lookup key

def isEmpty (t : ChainTable V) : Bool := t.size == 0

def summary (t : ChainTable V) : String :=
  "KeyedTable \x7b len: " ++ toString t.size ++ ", buckets: " ++ toString t.width ++ " \x7d"

def byteHash (key : Bytes) : Nat := key.foldl (fun sum b => (sum * 31 + b.toNat) % Word.size) 7

theorem insertWidth (t : ChainTable V) (key : Bytes) (value : V) :
    (t.insert key value).width = t.width := by
  simp [insert, width]

theorem insertPlace (t : ChainTable V) (key other : Bytes) (value : V) :
    (t.insert key value).place other = t.place other := by
  unfold place
  rw [insertWidth]
  rfl

end ChainTable
end StaticHttp
