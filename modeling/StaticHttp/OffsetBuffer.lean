import StaticHttp.ByteQueue
import StaticHttp.Word
import StaticHttp.Fault
/-! A byte queue kept as one string and an offset. Consumed bytes stay in front of the
offset until the buffer drains or is filled. The offset is a word: its sum with a count
comes before the cut to the length. The operations marked with `?` end the program where
a sum is stopped, where a slice would begin behind its end, and where more is asked for
than can be set aside in one piece; the plain ones are what they do where they succeed. -/
namespace StaticHttp

structure OffsetBuffer where
  stored : Bytes := []
  start : Nat := 0
  deriving DecidableEq, Repr

namespace OffsetBuffer

def unread (b : OffsetBuffer) : Bytes := b.stored.drop b.start

def size (b : OffsetBuffer) : Nat := b.stored.length - b.start

def isEmpty (b : OffsetBuffer) : Bool := b.size == 0

def withCapacity? (capacity : Nat) : Option OffsetBuffer := if capacity ≤ Word.mostBytes then some {} else none

def clear (_ : OffsetBuffer) : OffsetBuffer := {}

def renew? (b : OffsetBuffer) (reserved initial limit : Nat) : Option OffsetBuffer :=
  (if limit < reserved then withCapacity? initial else some b).map clear

def append (b : OffsetBuffer) (bytes : Bytes) : OffsetBuffer := { b with stored := b.stored ++ bytes }

def append? (b : OffsetBuffer) (bytes : Bytes) : Option OffsetBuffer :=
  if b.stored.length + bytes.length ≤ Word.mostBytes then some (b.append bytes) else none

def advanceTo (b : OffsetBuffer) (sum : Nat) : OffsetBuffer :=
  let start := min sum b.stored.length
  if start = b.stored.length then b.clear else { b with start := start }

def consume (b : OffsetBuffer) (n : Nat) : OffsetBuffer := b.advanceTo (Word.add b.start n)

def consume? (overflow : Overflow) (b : OffsetBuffer) (n : Nat) : Option OffsetBuffer :=
  (Word.sum? overflow b.start n).map b.advanceTo

instance : ByteQueue OffsetBuffer := ⟨unread, consume⟩

def makeRoom (b : OffsetBuffer) (chunk : Nat) : Bytes := b.unread ++ List.replicate chunk 0

/- A sum that has gone round is less than there is: what is stored is cut to it, and the
slice behind the unread bytes begins behind its end. -/
def makeRoom? (overflow : Overflow) (b : OffsetBuffer) (chunk : Nat) : Option Bytes := do
  let wanted ← Word.sum? overflow b.size chunk
  if b.size ≤ wanted ∧ wanted ≤ Word.mostBytes then some (b.makeRoom (wanted - b.size)) else none

def land (b : OffsetBuffer) (room arrived : Bytes) : OffsetBuffer :=
  let landed := room.take b.size ++ arrived ++ room.drop (b.size + arrived.length)
  { stored := landed.take (b.size + arrived.length) }

def fill (b : OffsetBuffer) (source : Bytes) (chunk : Nat) : OffsetBuffer × Nat :=
  let arrived := source.take chunk
  (b.land (b.makeRoom chunk) arrived, arrived.length)

def fillNothing (b : OffsetBuffer) (chunk : Nat) : OffsetBuffer := b.land (b.makeRoom chunk) []

def fill? (overflow : Overflow) (b : OffsetBuffer) (source : Bytes) (chunk : Nat) : Option (OffsetBuffer × Nat) := do
  let room ← b.makeRoom? overflow chunk
  let arrived := source.take chunk
  some (b.land room arrived, arrived.length)

def fillNothing? (overflow : Overflow) (b : OffsetBuffer) (chunk : Nat) : Option OffsetBuffer := do
  let room ← b.makeRoom? overflow chunk
  some (b.land room [])

/- Everything that can be done to a buffer. What is set aside when it is renewed is the
allocator's choice. -/
inductive Op where
  | append (bytes : Bytes)
  | consume (n : Nat)
  | clear
  | renew (reserved initial limit : Nat)
  | fill (source : Bytes) (chunk : Nat)
  | fillFault (fault : IoFault) (chunk : Nat)
  deriving DecidableEq, Repr

abbrev Report := Option (Except IoFault Nat)

def apply (overflow : Overflow) (b : OffsetBuffer) : Op → Option (OffsetBuffer × Report)
  | .append bytes => (b.append? bytes).map (·, none)
  | .consume n => (b.consume? overflow n).map (·, none)
  | .clear => some (b.clear, none)
  | .renew reserved initial limit => (b.renew? reserved initial limit).map (·, none)
  | .fill source chunk => (b.fill? overflow source chunk).map fun filled => (filled.1, some (.ok filled.2))
  | .fillFault fault chunk => (b.fillNothing? overflow chunk).map (·, some (.error fault))

def run (overflow : Overflow) (b : OffsetBuffer) (ops : List Op) : Option OffsetBuffer :=
  ops.foldlM (fun b op => (b.apply overflow op).map Prod.fst) b

theorem unreadLength (b : OffsetBuffer) : b.unread.length = b.size := by
  simp [unread, size]

theorem isEmptyIff (b : OffsetBuffer) : b.isEmpty = true ↔ b.unread = [] := by
  rw [isEmpty, beq_iff_eq, ← unreadLength, List.length_eq_zero_iff]

theorem unreadClear (b : OffsetBuffer) : b.clear.unread = [] := rfl

theorem advanceInside (b : OffsetBuffer) (sum : Nat) : (b.advanceTo sum).start ≤ (b.advanceTo sum).stored.length := by
  simp only [advanceTo]
  split
  · exact Nat.le_refl 0
  · exact Nat.min_le_right _ _

theorem renewSome {b e : OffsetBuffer} {reserved initial limit : Nat} (renewed : b.renew? reserved initial limit = some e) :
    e = b.clear := by
  obtain ⟨_, -, same⟩ := Option.map_eq_some_iff.mp renewed
  exact same.symm

theorem renewFits {b : OffsetBuffer} {reserved initial limit : Nat} (fits : reserved ≤ limit ∨ initial ≤ Word.mostBytes) :
    b.renew? reserved initial limit = some b.clear := by
  rw [renew?]
  split
  · rename_i more
    rw [withCapacity?, if_pos (fits.resolve_left (Nat.not_le.mpr more))]
    rfl
  · rfl

theorem consumeInside (b : OffsetBuffer) (n : Nat) : (b.consume n).start ≤ (b.consume n).stored.length :=
  b.advanceInside _

theorem landTaken (b : OffsetBuffer) {room arrived : Bytes} (kept : room.take b.size = b.unread) :
    b.land room arrived = { stored := b.unread ++ arrived } := by
  have length : (b.unread ++ arrived).length = b.size + arrived.length := by simp [unreadLength]
  rw [land, kept, ← length, List.take_left]

theorem takeRoom (b : OffsetBuffer) (chunk : Nat) : (b.makeRoom chunk).take b.size = b.unread := by
  rw [makeRoom, ← unreadLength, List.take_left]

theorem unreadAppend {b : OffsetBuffer} (inside : b.start ≤ b.stored.length) (bytes : Bytes) :
    (b.append bytes).unread = b.unread ++ bytes := by
  simp [append, unread, List.drop_append_of_le_length inside]

theorem unreadConsume {b : OffsetBuffer} {n : Nat} (fits : b.start + n < Word.size) :
    (b.consume n).unread = b.unread.drop n := by
  simp only [consume, advanceTo, Word.addFits fits, unread, List.drop_drop]
  split
  · rename_i all
    exact (List.drop_of_length_le (by omega)).symm
  · rename_i some
    have : min (b.start + n) b.stored.length = b.start + n := by omega
    simp only [this]

theorem fillTaken (b : OffsetBuffer) (source : Bytes) (chunk : Nat) :
    b.fill source chunk = ({ stored := b.unread ++ source.take chunk }, (source.take chunk).length) := by
  rw [fill, landTaken b (b.takeRoom chunk)]

theorem fillNothingTaken (b : OffsetBuffer) (chunk : Nat) : b.fillNothing chunk = { stored := b.unread } := by
  rw [fillNothing, landTaken b (b.takeRoom chunk), List.append_nil]

theorem unreadFill (b : OffsetBuffer) (source : Bytes) (chunk : Nat) :
    (b.fill source chunk).1.unread = b.unread ++ source.take chunk := by
  rw [fillTaken]
  rfl

theorem consumeSome {overflow : Overflow} {b e : OffsetBuffer} {n : Nat} (consumed : b.consume? overflow n = some e) :
    e = b.consume n := by
  obtain ⟨sum, some, rfl⟩ := Option.map_eq_some_iff.mp consumed
  rw [consume, Word.sumAdd some]

theorem consumeFits (overflow : Overflow) {b : OffsetBuffer} {n : Nat} (fits : b.start + n < Word.size) :
    b.consume? overflow n = some (b.consume n) := by
  rw [consume?, Word.sumFits overflow fits, consume, Word.addFits fits, Option.map_some]

theorem consumeStops (b : OffsetBuffer) (n : Nat) :
    b.consume? .stops n = if b.start + n < Word.size then some (b.consume n) else none := by
  split
  · rename_i small
    exact consumeFits .stops small
  · rename_i large
    rw [consume?, Word.sumStops.mpr (Nat.le_of_not_lt large), Option.map_none]

theorem roomFits (overflow : Overflow) {b : OffsetBuffer} {chunk : Nat} (fits : b.size + chunk ≤ Word.mostBytes) :
    b.makeRoom? overflow chunk = some (b.makeRoom chunk) := by
  have sum := Word.sumFits overflow (Nat.lt_of_le_of_lt fits Word.mostBelow)
  simp only [makeRoom?, sum, Option.bind_eq_bind, Option.bind_some]
  rw [if_pos ⟨Nat.le_add_right _ _, fits⟩, Nat.add_sub_cancel_left]

theorem roomKeeps {overflow : Overflow} {b : OffsetBuffer} {chunk : Nat} {room : Bytes}
    (made : b.makeRoom? overflow chunk = some room) : room.take b.size = b.unread := by
  simp only [makeRoom?, Option.bind_eq_bind, Option.bind_eq_some_iff, Option.ite_none_right_eq_some] at made
  obtain ⟨wanted, -, -, same⟩ := made
  exact Option.some.inj same ▸ b.takeRoom _

theorem roomNone {overflow : Overflow} {b : OffsetBuffer} {chunk : Nat} (word : chunk < Word.size)
    (large : Word.mostBytes < b.size + chunk) : b.makeRoom? overflow chunk = none := by
  simp only [makeRoom?, Option.bind_eq_bind]
  cases sum : Word.sum? overflow b.size chunk with
  | none => rfl
  | some wanted =>
    rw [Option.bind_some, if_neg]
    rintro ⟨longer, few⟩
    have wrapped := Word.sumAdd sum
    by_cases fits : b.size + chunk < Word.size
    · rw [Word.addFits fits] at wrapped
      omega
    · have past := Nat.le_of_not_lt fits
      cases overflow with
      | stops => simp [Word.sumStops.mpr past] at sum
      | wraps =>
        have inside : b.size < Word.size := Nat.lt_of_le_of_lt longer (wrapped ▸ Word.addBelow _ _)
        rw [Word.addOver inside word past] at wrapped
        omega

theorem fillSome {overflow : Overflow} {b : OffsetBuffer} {source : Bytes} {chunk : Nat} {filled : OffsetBuffer × Nat}
    (read : b.fill? overflow source chunk = some filled) : filled = b.fill source chunk := by
  obtain ⟨room, made, same⟩ := Option.bind_eq_some_iff.mp read
  rw [← Option.some.inj same, landTaken b (roomKeeps made), fillTaken]

theorem fillNothingSome {overflow : Overflow} {b e : OffsetBuffer} {chunk : Nat}
    (read : b.fillNothing? overflow chunk = some e) : e = b.fillNothing chunk := by
  obtain ⟨room, made, same⟩ := Option.bind_eq_some_iff.mp read
  rw [← Option.some.inj same, landTaken b (roomKeeps made), List.append_nil, fillNothingTaken]

theorem fillFits (overflow : Overflow) {b : OffsetBuffer} (source : Bytes) {chunk : Nat}
    (fits : b.size + chunk ≤ Word.mostBytes) : b.fill? overflow source chunk = some (b.fill source chunk) := by
  rw [fill?, roomFits overflow fits]
  rfl

theorem fillNothingFits (overflow : Overflow) {b : OffsetBuffer} {chunk : Nat}
    (fits : b.size + chunk ≤ Word.mostBytes) : b.fillNothing? overflow chunk = some (b.fillNothing chunk) := by
  rw [fillNothing?, roomFits overflow fits]
  rfl

end OffsetBuffer
end StaticHttp
