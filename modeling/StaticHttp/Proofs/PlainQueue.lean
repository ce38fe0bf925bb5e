import Mathlib.Data.List.Forall2
import StaticHttp.OffsetBuffer
/-! A buffer with an offset is a plain queue of bytes, as long as every operation has what it
asks for: that consumed bytes are kept for a while, and when they are given back, cannot be
seen. A sum of the offset and a count that leaves the word ends the program or sets the offset
back, and then consumed bytes come up again. -/
namespace StaticHttp.OffsetBuffer

def trace (overflow : Overflow) (b : OffsetBuffer) : List Op → Option (List (OffsetBuffer × Report))
  | [] => some []
  | op :: ops => do
      let next ← b.apply overflow op
      let further ← trace overflow next.1 ops
      some (next :: further)

namespace Op

def outcome (b : OffsetBuffer) : Op → OffsetBuffer × Report
  | append bytes => (b.append bytes, none)
  | consume n => (b.consume n, none)
  | clear | renew _ _ _ => (b.clear, none)
  | fill source chunk => ((b.fill source chunk).1, some (.ok (b.fill source chunk).2))
  | fillFault fault chunk => (b.fillNothing chunk, some (.error fault))

def onBytes (held : Bytes) : Op → Bytes × Report
  | append bytes => (held ++ bytes, none)
  | consume n => (held.drop (min n held.length), none)
  | clear | renew _ _ _ => ([], none)
  | fill source chunk => (held ++ source.take (min chunk source.length), some (.ok (min chunk source.length)))
  | fillFault fault _ => (held, some (.error fault))

def traceBytes (held : Bytes) : List Op → List (Bytes × Report)
  | [] => []
  | op :: ops => op.onBytes held :: traceBytes (op.onBytes held).1 ops

def supplied : Op → Bytes
  | append bytes => bytes
  | fill source chunk => source.take chunk
  | consume _ | clear | renew _ _ _ | fillFault _ _ => []

def Summed (b : OffsetBuffer) : Op → Prop
  | consume n => b.start + n < Word.size
  | append _ | clear | renew _ _ _ | fill _ _ | fillFault _ _ => True

def Housed (b : OffsetBuffer) : Op → Prop
  | append bytes => b.stored.length + bytes.length ≤ Word.mostBytes
  | renew reserved initial limit => reserved ≤ limit ∨ initial ≤ Word.mostBytes
  | fill _ chunk | fillFault _ chunk => b.size + chunk ≤ Word.mostBytes
  | consume _ | clear => True

def WordChunk : Op → Prop
  | fill _ chunk | fillFault _ chunk => chunk < Word.size
  | append _ | consume _ | clear | renew _ _ _ => True

instance (b : OffsetBuffer) : (op : Op) → Decidable (op.Summed b)
  | consume n => inferInstanceAs (Decidable (b.start + n < Word.size))
  | append _ | clear | renew _ _ _ | fill _ _ | fillFault _ _ => .isTrue trivial

instance (b : OffsetBuffer) : (op : Op) → Decidable (op.Housed b)
  | append bytes => inferInstanceAs (Decidable (b.stored.length + bytes.length ≤ Word.mostBytes))
  | renew reserved initial limit => inferInstanceAs (Decidable (reserved ≤ limit ∨ initial ≤ Word.mostBytes))
  | fill _ chunk | fillFault _ chunk => inferInstanceAs (Decidable (b.size + chunk ≤ Word.mostBytes))
  | consume _ | clear => .isTrue trivial

end Op

def Fits (b : OffsetBuffer) : List Op → Prop
  | [] => True
  | op :: ops => op.Summed b ∧ op.Housed b ∧ (op.outcome b).1.Fits ops

def decideFits (b : OffsetBuffer) : (ops : List Op) → Decidable (b.Fits ops)
  | [] => .isTrue trivial
  | op :: ops =>
      have := decideFits (op.outcome b).1 ops
      inferInstanceAs (Decidable (op.Summed b ∧ op.Housed b ∧ (op.outcome b).1.Fits ops))

instance (b : OffsetBuffer) (ops : List Op) : Decidable (b.Fits ops) := decideFits b ops

structure Shows (seen : OffsetBuffer × Report) (plain : Bytes × Report) : Prop where
  inside : seen.1.start ≤ seen.1.stored.length
  unread : seen.1.unread = plain.1
  size : seen.1.size = plain.1.length
  isEmpty : seen.1.isEmpty = true ↔ plain.1 = []
  report : seen.2 = plain.2

variable {overflow : Overflow} {b last : OffsetBuffer} {held brought : Bytes} {op : Op} {ops : List Op}

theorem applyFits (summed : overflow = .stops → op.Summed b) (housed : op.Housed b) :
    b.apply overflow op = some (op.outcome b) := by
  cases op with
  | append bytes =>
    have room : b.stored.length + bytes.length ≤ Word.mostBytes := housed
    rw [apply, append?, if_pos room, Option.map_some, Op.outcome]
  | consume n =>
    cases overflow with
    | stops => rw [apply, consumeFits .stops (summed rfl), Option.map_some, Op.outcome]
    | wraps => rfl
  | clear => rfl
  | renew reserved initial limit => rw [apply, renewFits housed, Option.map_some, Op.outcome]
  | fill source chunk => rw [apply, fillFits overflow source housed, Option.map_some, Op.outcome]
  | fillFault fault chunk => rw [apply, fillNothingFits overflow housed, Option.map_some, Op.outcome]

theorem applySome {next : OffsetBuffer × Report} (applied : b.apply overflow op = some next) : next = op.outcome b := by
  cases op with
  | append bytes =>
    obtain ⟨_, appended, rfl⟩ := Option.map_eq_some_iff.mp applied
    obtain ⟨-, same⟩ := Option.ite_none_right_eq_some.mp appended
    rw [← Option.some.inj same, Op.outcome]
  | consume n =>
    obtain ⟨_, consumed, rfl⟩ := Option.map_eq_some_iff.mp applied
    rw [consumeSome consumed, Op.outcome]
  | clear => exact (Option.some.inj applied).symm
  | renew reserved initial limit =>
    obtain ⟨_, renewed, rfl⟩ := Option.map_eq_some_iff.mp applied
    rw [renewSome renewed, Op.outcome]
  | fill source chunk =>
    obtain ⟨_, filled, rfl⟩ := Option.map_eq_some_iff.mp applied
    rw [fillSome filled, Op.outcome]
  | fillFault fault chunk =>
    obtain ⟨_, filled, rfl⟩ := Option.map_eq_some_iff.mp applied
    rw [fillNothingSome filled, Op.outcome]

theorem unhousedEnds (overflow : Overflow) (word : op.WordChunk) (unhoused : ¬ op.Housed b) :
    b.apply overflow op = none := by
  cases op with
  | append bytes =>
    have large : ¬ b.stored.length + bytes.length ≤ Word.mostBytes := unhoused
    rw [apply, append?, if_neg large, Option.map_none]
  | consume n | clear => exact absurd trivial unhoused
  | renew reserved initial limit =>
    obtain ⟨more, large⟩ := not_or.mp unhoused
    rw [apply, renew?, if_pos (Nat.lt_of_not_le more), withCapacity?, if_neg large]
    rfl
  | fill source chunk =>
    rw [apply, fill?, roomNone word (Nat.lt_of_not_le unhoused)]
    rfl
  | fillFault fault chunk =>
    rw [apply, fillNothing?, roomNone word (Nat.lt_of_not_le unhoused)]
    rfl

theorem unsummedEnds (unsummed : ¬ op.Summed b) : b.apply .stops op = none := by
  cases op with
  | consume n =>
    have large : ¬ b.start + n < Word.size := unsummed
    rw [apply, consumeStops, if_neg large, Option.map_none]
  | append _ | clear | renew _ _ _ | fill _ _ | fillFault _ _ => exact absurd trivial unsummed

theorem endsIff (overflow : Overflow) (word : op.WordChunk) :
    b.apply overflow op = none ↔ ¬ op.Housed b ∨ overflow = .stops ∧ ¬ op.Summed b := by
  refine ⟨fun ends => ?_, fun lacks => ?_⟩
  · by_contra all
    obtain ⟨housed, summed⟩ := not_or.mp all
    have goesOn := applyFits (fun stops => not_not.mp fun unsummed => summed ⟨stops, unsummed⟩) (not_not.mp housed)
    rw [goesOn] at ends
    contradiction
  · rcases lacks with unhoused | ⟨rfl, unsummed⟩
    · exact unhousedEnds overflow word unhoused
    · exact unsummedEnds unsummed

theorem showsSame {report told : Report} (inside : b.start ≤ b.stored.length)
    (same : b.unread = held) (reports : report = told) : Shows (b, report) (held, told) := by
  refine ⟨inside, same, ?_, ?_, reports⟩
  · rw [← unreadLength, same]
  · rw [isEmptyIff, same]

theorem outcomeShows (inside : b.start ≤ b.stored.length) (summed : op.Summed b) :
    Shows (op.outcome b) (op.onBytes b.unread) := by
  cases op with
  | append bytes =>
    have longer : b.stored.length ≤ (b.append bytes).stored.length := by simp [append]
    exact showsSame (Nat.le_trans inside longer) (unreadAppend inside bytes) rfl
  | consume n =>
    refine showsSame (consumeInside b n) ?_ rfl
    rw [unreadConsume summed, ← List.drop_eq_drop_min]
  | clear | renew reserved initial limit => exact showsSame (Nat.le_refl 0) rfl rfl
  | fill source chunk =>
    refine showsSame (Nat.zero_le _) ?_ ?_
    · rw [unreadFill, List.take_eq_take_min]
    · simp [fill]
  | fillFault fault chunk =>
    refine showsSame (Nat.zero_le _) ?_ rfl
    rw [fillNothingTaken]
    rfl

theorem traceShows (overflow : Overflow) (inside : b.start ≤ b.stored.length) (fits : b.Fits ops) :
    ∃ states, b.trace overflow ops = some states ∧ List.Forall₂ Shows states (Op.traceBytes b.unread ops) := by
  induction ops generalizing b with
  | nil => exact ⟨[], rfl, .nil⟩
  | cons op rest ih =>
    have shows := outcomeShows inside fits.1
    obtain ⟨further, traced, shown⟩ := ih shows.inside fits.2.2
    rw [shows.unread] at shown
    refine ⟨op.outcome b :: further, ?_, .cons shows shown⟩
    simp only [trace, applyFits (fun _ => fits.1) fits.2.1, traced, Option.bind_eq_bind, Option.bind_some]

theorem runCons (overflow : Overflow) (b : OffsetBuffer) (op : Op) (ops : List Op) :
    b.run overflow (op :: ops) = (b.apply overflow op).bind fun next => next.1.run overflow ops := by
  simp only [run, List.foldlM_cons, Option.bind_eq_bind, Option.bind_map]
  rfl

theorem runFits (overflow : Overflow) (fits : b.Fits ops) : ∃ last, b.run overflow ops = some last := by
  induction ops generalizing b with
  | nil => exact ⟨b, rfl⟩
  | cons op rest ih =>
    rw [runCons, applyFits (fun _ => fits.1) fits.2.1]
    exact ih fits.2.2

/-- What holds of a buffer whatever was consumed: the offset is a word that stands in front of
a stored byte or at the beginning, and what is stored is the end of what came in. -/
structure Kept (b : OffsetBuffer) (brought : Bytes) : Prop where
  word : b.start < Word.size
  inside : b.start = 0 ∨ b.start < b.stored.length
  stored : b.stored <:+ brought

theorem keptStart {stored : Bytes} (suffix : stored <:+ brought) : Kept { stored := stored } brought :=
  ⟨(by decide : 0 < Word.size), .inl rfl, suffix⟩

theorem unreadSuffix (b : OffsetBuffer) : b.unread <:+ b.stored := List.drop_suffix _ _

theorem Kept.consume (kept : b.Kept brought) (n : Nat) : (b.consume n).Kept brought := by
  simp only [OffsetBuffer.consume, advanceTo]
  split
  · exact keptStart List.nil_suffix
  · rename_i some
    exact ⟨Nat.lt_of_le_of_lt (Nat.min_le_left _ _) (Word.addBelow _ _), .inr (Nat.lt_of_le_of_ne (Nat.min_le_right _ _) some), kept.stored⟩

theorem Kept.outcome (kept : b.Kept brought) (op : Op) : (op.outcome b).1.Kept (brought ++ op.supplied) := by
  obtain ⟨gone, whole⟩ := kept.stored
  cases op with
  | append bytes =>
    refine ⟨kept.word, ?_, gone, ?_⟩
    · rcases kept.inside with none | some
      · exact .inl none
      · exact .inr (Nat.lt_of_lt_of_le some (by simp [Op.outcome, append]))
    · rw [← whole, List.append_assoc]
      rfl
  | consume n => exact (List.append_nil brought).symm ▸ kept.consume n
  | clear | renew reserved initial limit => exact keptStart List.nil_suffix
  | fill source chunk =>
    obtain ⟨front, unread⟩ := b.unreadSuffix.trans kept.stored
    have whole : front ++ (b.unread ++ source.take chunk) = brought ++ source.take chunk := by
      rw [← List.append_assoc, unread]
    simp only [Op.outcome, fillTaken]
    exact keptStart ⟨front, whole⟩
  | fillFault fault chunk =>
    have suffix : b.unread <:+ brought := b.unreadSuffix.trans kept.stored
    simp only [Op.outcome, fillNothingTaken]
    exact keptStart ((List.append_nil brought).symm ▸ suffix)

theorem Kept.run (kept : b.Kept brought) (reached : b.run overflow ops = some last) :
    last.Kept (brought ++ ops.flatMap Op.supplied) := by
  induction ops generalizing b brought with
  | nil =>
    cases reached
    simpa using kept
  | cons op rest ih =>
    rw [runCons, Option.bind_eq_some_iff] at reached
    obtain ⟨next, applied, reached⟩ := reached
    cases applySome applied
    have onward := ih (kept.outcome op) reached
    rw [List.append_assoc] at onward
    exact onward

theorem runKept {capacity : Nat} {fresh : OffsetBuffer} (opened : withCapacity? capacity = some fresh)
    (reached : fresh.run overflow ops = some last) : last.Kept (ops.flatMap Op.supplied) := by
  obtain ⟨-, same⟩ := Option.ite_none_right_eq_some.mp opened
  cases same
  exact (keptStart (List.suffix_refl [])).run reached

theorem consumeOver (kept : b.Kept brought) {n : Nat} (word : n < Word.size) (large : Word.size ≤ b.start + n) :
    Word.size - n ≤ b.start ∧
      (b.consume n).unread = (b.stored.take b.start).drop (b.start - (Word.size - n)) ++ b.unread := by
  have small := kept.word
  have some : b.start < b.stored.length := kept.inside.resolve_left (by omega)
  have back : Word.add b.start n = b.start - (Word.size - n) := by
    rw [Word.addOver small word large]
    omega
  have least : min (b.start - (Word.size - n)) b.stored.length = b.start - (Word.size - n) := by omega
  refine ⟨by omega, ?_⟩
  simp only [consume, advanceTo, back, least, unread]
  rw [if_neg (by omega), ← List.drop_append_of_le_length (by rw [List.length_take]; omega), List.take_append_drop]

theorem consumeLonger (kept : b.Kept brought) {n : Nat} (word : n < Word.size) (large : Word.size ≤ b.start + n) :
    b.unread.length < (b.consume n).unread.length := by
  obtain ⟨few, up⟩ := consumeOver kept word large
  have some : b.start < b.stored.length := kept.inside.resolve_left (by omega)
  rw [up, List.length_append, List.length_drop, List.length_take]
  omega

theorem Kept.behindOffset (kept : b.Kept brought) : b.stored.take b.start ++ b.unread <:+ brought := by
  rw [unread, List.take_append_drop]
  exact kept.stored

/-- Consuming all there is, or more, empties a buffer exactly if the offset and the count fit
in a word together. If they do not, a build that checks its sums ends the program, and in one
that does not the last of the consumed bytes come up again. -/
theorem emptiedIff (overflow : Overflow) {capacity : Nat} {ops : List Op} {fresh b : OffsetBuffer} (n : Nat)
    (opened : withCapacity? capacity = some fresh) (reached : fresh.run overflow ops = some b) (word : n < Word.size) :
    let after := b.consume n
    b.consume? .wraps n = some after ∧
      b.consume? .stops n = (if b.start + n < Word.size then some after else none) ∧
      b.stored.take b.start ++ b.unread <:+ ops.flatMap Op.supplied ∧
      (b.start + n < Word.size → after.unread = b.unread.drop n) ∧
      (Word.size ≤ b.start + n → Word.size - n ≤ b.start ∧
        after.unread = (b.stored.take b.start).drop (b.start - (Word.size - n)) ++ b.unread) ∧
      (b.size ≤ n → (after.isEmpty = true ↔ b.start + n < Word.size)) ∧
      (after.unread <:+ b.unread ↔ b.start + n < Word.size) := by
  intro after
  have kept : b.Kept (ops.flatMap Op.supplied) := runKept opened reached
  have within : b.start + n < Word.size → after.unread = b.unread.drop n := unreadConsume
  have longer : Word.size ≤ b.start + n → b.unread.length < after.unread.length := consumeLonger kept word
  refine ⟨rfl, b.consumeStops n, kept.behindOffset, within, consumeOver kept word,
    fun all => ⟨fun empty => ?_, fun small => ?_⟩, fun suffix => ?_, fun small => ?_⟩
  · refine Nat.lt_of_not_le fun large => ?_
    have nothing := longer large
    rw [(isEmptyIff _).mp empty] at nothing
    exact Nat.not_lt_zero _ nothing
  · rw [isEmptyIff, within small, List.drop_eq_nil_iff, unreadLength]
    exact all
  · exact Nat.lt_of_not_le fun large => absurd suffix.length_le (Nat.not_le.mpr (longer large))
  · rw [within small]
    exact List.drop_suffix _ _

theorem emptiedIffAtLargest :
    let b : OffsetBuffer := { stored := ascii "abc", start := 2 }
    let n := Word.size - 1
    withCapacity? 16 = some {} ∧ run .wraps {} [.append (ascii "abc"), .consume 2] = some b ∧ n < Word.size ∧
      b.size ≤ n ∧ ¬ b.start + n < Word.size ∧ (b.consume n).isEmpty ≠ true ∧ b.consume? .stops n = none ∧
      (b.consume n).unread = ascii "b" ++ b.unread := by
  intro b n
  have opened : withCapacity? 16 = some {} := by decide +kernel
  have reached : run .wraps {} [.append (ascii "abc"), .consume 2] = some b := by decide +kernel
  have word : n < Word.size := by decide +kernel
  have all : b.size ≤ n := by decide +kernel
  have large : Word.size ≤ b.start + n := by decide +kernel
  obtain ⟨_, checked, _, _, back, empty, _⟩ := emptiedIff .wraps n opened reached word
  have last : (b.stored.take b.start).drop (b.start - (Word.size - n)) = ascii "b" := by decide +kernel
  refine ⟨opened, reached, word, all, Nat.not_lt.mpr large, fun emptied => Nat.not_lt.mpr large ((empty all).mp emptied),
    checked.trans (if_neg (Nat.not_lt.mpr large)), ?_⟩
  rw [(back large).2, last]

/- The buffer is not emptied but has a byte that was consumed before; a build that checks the
sum ends the program instead. -/
theorem consumedComesUp :
    let before : List Op := [.append (ascii "abc"), .consume 2]
    let ops := before ++ [.consume (Word.size - 1)]
    (run .wraps {} before).map unread = some (ascii "c") ∧ (run .wraps {} ops).map isEmpty = some false ∧
      (run .wraps {} ops).map unread = some (ascii "bc") ∧ run .stops {} ops = none := by
  decide +kernel

end StaticHttp.OffsetBuffer
