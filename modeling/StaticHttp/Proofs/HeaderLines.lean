import StaticHttp.Draft.Headers
import StaticHttp.Proofs.HeadEnd
import StaticHttp.Proofs.Reach
import StaticHttp.Proofs.Scan
/-! Reading header lines, byte by byte, and what their values do to a draft. The
state of the reader tells how the text behind it ends, so the line it takes for
blank is the first blank line of the text. -/
namespace StaticHttp.Draft
open HeadEnd (Open Closed IsHead)

structure HeaderEffect (buffer : Bytes) (d : Draft) (position : Nat) (e : Draft) : Prop where
  mark : e.mark = d.mark ∨ e.mark = position
  name : e.name = d.name ∨ e.name = .range d.mark position
  value : e.value = d.value ∨ e.value = (Span.range d.mark position).trimRight buffer
  frame : e = { d with
    field := e.field, mark := e.mark, cursor := e.cursor, name := e.name, value := e.value }

theorem headerEffect (buffer : Bytes) (d : Draft) (position : Nat) (b : UInt8) :
    (headerByte buffer d position b).Leaves (HeaderEffect buffer d position) := by
  cases state : d.field with
  | name =>
    simp only [headerByte, state]
    repeat' split
    · exact ⟨.inl rfl, .inr rfl, .inl rfl, rfl⟩
    · exact ⟨.inl rfl, .inl rfl, .inl rfl, rfl⟩
    · exact ⟨.inl rfl, .inl rfl, .inl rfl, rfl⟩
  | value =>
    simp only [headerByte, state]
    repeat' split
    · exact ⟨.inl rfl, .inl rfl, .inr rfl, rfl⟩
    · exact ⟨.inl rfl, .inl rfl, .inr rfl, rfl⟩
    · exact ⟨.inl rfl, .inl rfl, .inl rfl, rfl⟩
  | start =>
    simp only [headerByte, state]
    repeat' split
    · exact ⟨.inl rfl, .inl rfl, .inl rfl, rfl⟩
    · exact ⟨.inl rfl, .inl rfl, .inl rfl, rfl⟩
    · exact ⟨.inr rfl, .inl rfl, .inl rfl, rfl⟩
    · exact ⟨.inl rfl, .inl rfl, .inl rfl, rfl⟩
  | beforeValue =>
    simp only [headerByte, state]
    repeat' split
    · exact ⟨.inl rfl, .inl rfl, .inl rfl, rfl⟩
    · exact ⟨.inl rfl, .inl rfl, .inl rfl, rfl⟩
    · exact ⟨.inr rfl, .inl rfl, .inl rfl, rfl⟩
  | valueEnd | blankEnd =>
    simp only [headerByte, state]
    split
    all_goals exact ⟨.inl rfl, .inl rfl, .inl rfl, rfl⟩

theorem headerParked (buffer : Bytes) (d : Draft) (position : Nat) (b : UInt8) (n : Nat) :
    headerByte buffer (d.parked n) position b = (headerByte buffer d position b).parked n := by
  cases state : d.field with
  | start | name | beforeValue | value | valueEnd | blankEnd =>
    simp only [headerByte, parkedField, state, endValue, parkedMark]
    repeat' split
    all_goals rfl

theorem headerStable {buffer : Bytes} {d : Draft} {position : Nat} (mark : d.mark ≤ buffer.length)
    (inside : position ≤ buffer.length) (more : Bytes) (b : UInt8) :
    headerByte (buffer ++ more) d position b = headerByte buffer d position b := by
  have token : (Span.range d.mark position).reach ≤ buffer.length := Span.reachRange mark inside
  cases state : d.field with
  | value => simp only [headerByte, state, endValue, Span.trimRightAppend token]
  | start | name | beforeValue | valueEnd | blankEnd => simp only [headerByte, state]

theorem HeaderEffect.within {text : Bytes} {b : UInt8} {d e : Draft}
    (effect : HeaderEffect (text ++ [b]) d text.length e) (within : d.Within text.length) :
    e.Within (text ++ [b]).length := by
  have grown : d.Within (text ++ [b]).length := within.mono (by simp)
  have token : (Span.range d.mark text.length).reach ≤ (text ++ [b]).length :=
    Span.reachRange grown.mark (by simp)
  have mark : e.mark ≤ (text ++ [b]).length := by
    rcases effect.mark with same | here
    · exact same ▸ grown.mark
    · simp [here]
  have name : e.name.reach ≤ (text ++ [b]).length := by
    rcases effect.name with same | named
    · exact same ▸ grown.name
    · exact named ▸ token
  have value : e.value.reach ≤ (text ++ [b]).length := by
    rcases effect.value with same | noted
    · exact same ▸ grown.value
    · exact noted ▸ Nat.le_trans (Span.reachTrimRight _ _) token
  rw [effect.frame]
  exact ⟨mark, name, value, grown.target, grown.fields⟩

/- What the reader's state says of the text: whether it ends with a line end, or
with the CR that may make the next line blank, or with neither. -/
def Stands (field : FieldState) (text : Bytes) : Prop :=
  match field with
  | .start => [Byte.lf] <:+ text
  | .blankEnd => [Byte.lf, Byte.cr] <:+ text
  | .name | .beforeValue | .value | .valueEnd => ¬ [Byte.lf] <:+ text ∧ ¬ [Byte.lf, Byte.cr] <:+ text

theorem classInside (kind : UInt8 → Bool) (lf : kind Byte.lf = false) (cr : kind Byte.cr = false)
    {b : UInt8} (member : kind b = true) : b ≠ Byte.lf ∧ b ≠ Byte.cr := by
  constructor
  · rintro rfl
    exact Bool.false_ne_true (lf.symm.trans member)
  · rintro rfl
    exact Bool.false_ne_true (cr.symm.trans member)

theorem endsInside (text : Bytes) {b : UInt8} (lf : b ≠ Byte.lf) (cr : b ≠ Byte.cr) :
    ¬ [Byte.lf] <:+ text ++ [b] ∧ ¬ [Byte.lf, Byte.cr] <:+ text ++ [b] := by
  rw [HeadEnd.endsInLf, HeadEnd.endsInLfCr]
  exact ⟨lf, fun both => cr both.1⟩

theorem headerNext {text : Bytes} {d e : Draft} {b : UInt8} (stands : Stands d.field text)
    (next : headerByte (text ++ [b]) d text.length b = .next e) :
    b ≠ Byte.lf ∧ Stands e.field (text ++ [b]) := by
  cases state : d.field with
  | start =>
    simp only [headerByte, state] at next
    simp only [state, Stands] at stands
    split at next
    · rename_i cr
      cases next
      exact ⟨by rw [cr]; decide, (HeadEnd.endsInLfCr text b).mpr ⟨cr, stands⟩⟩
    · split at next
      · contradiction
      · split at next
        · rename_i cr lf _
          cases next
          exact ⟨lf, endsInside text lf cr⟩
        · contradiction
  | name =>
    simp only [headerByte, state] at next
    split at next
    · rename_i colon
      cases next
      have other : b ≠ Byte.lf ∧ b ≠ Byte.cr := by rw [colon]; decide
      exact ⟨other.1, endsInside text other.1 other.2⟩
    · split at next
      · rename_i name
        cases next
        have other := classInside isNameByte rfl rfl name
        rw [state]
        exact ⟨other.1, endsInside text other.1 other.2⟩
      · contradiction
  | beforeValue =>
    simp only [headerByte, state] at next
    split at next
    · rename_i blank
      cases next
      have other := classInside Byte.isBlank rfl rfl blank
      rw [state]
      exact ⟨other.1, endsInside text other.1 other.2⟩
    · split at next
      · contradiction
      · rename_i unbroken
        cases next
        have other := classInside (fun c => !Byte.isBreak c) rfl rfl (by simpa using unbroken)
        exact ⟨other.1, endsInside text other.1 other.2⟩
  | value =>
    simp only [headerByte, state] at next
    simp only [state, Stands] at stands
    split at next
    · rename_i cr
      cases next
      have lf : b ≠ Byte.lf := by rw [cr]; decide
      refine ⟨lf, ?_, ?_⟩
      · rwa [HeadEnd.endsInLf]
      · rw [HeadEnd.endsInLfCr]
        exact fun both => stands.1 both.2
    · split at next
      · contradiction
      · rename_i cr lf
        cases next
        rw [state]
        exact ⟨lf, endsInside text lf cr⟩
  | valueEnd | blankEnd =>
    simp only [headerByte, state] at next
    split at next
    all_goals contradiction

theorem headerStop {text : Bytes} {d e : Draft} {b : UInt8} {line : HeaderLine} (stands : Stands d.field text)
    (stopped : headerByte (text ++ [b]) d text.length b = .stop e line) :
    b = Byte.lf ∧ e.field = .start ∧ e.cursor = (text ++ [b]).length ∧
      (line = .blank ↔ Closed (text ++ [b])) := by
  have cursor : text.length + 1 = (text ++ [b]).length := by simp
  cases state : d.field with
  | start =>
    simp only [headerByte, state] at stopped
    simp only [state, Stands] at stands
    split at stopped
    · contradiction
    · split at stopped
      · rename_i lf
        cases stopped
        exact ⟨lf, rfl, cursor, by simp [HeadEnd.closedSnoc, lf, stands]⟩
      · split at stopped <;> contradiction
  | blankEnd =>
    simp only [headerByte, state] at stopped
    simp only [state, Stands] at stands
    split at stopped
    · rename_i lf
      cases stopped
      exact ⟨lf, rfl, cursor, by simp [HeadEnd.closedSnoc, lf, stands]⟩
    · contradiction
  | value =>
    simp only [headerByte, state] at stopped
    simp only [state, Stands] at stands
    split at stopped
    · contradiction
    · split at stopped
      · rename_i lf
        cases stopped
        exact ⟨lf, rfl, cursor, by simp [HeadEnd.closedSnoc, stands]⟩
      · contradiction
  | valueEnd =>
    simp only [headerByte, state] at stopped
    simp only [state, Stands] at stands
    split at stopped
    · rename_i lf
      cases stopped
      exact ⟨lf, rfl, cursor, by simp [HeadEnd.closedSnoc, stands]⟩
    · contradiction
  | name | beforeValue =>
    simp only [headerByte, state] at stopped
    repeat' split at stopped
    all_goals contradiction

theorem headerRefuse {buffer : Bytes} {d e : Draft} {position : Nat} {b : UInt8} {fault : Fault}
    (refused : headerByte buffer d position b = .refuse e fault) : e = d ∧ fault = .invalidHeader := by
  cases state : d.field with
  | start | name | beforeValue | value | valueEnd | blankEnd =>
    simp only [headerByte, state] at refused
    repeat' split at refused
    all_goals cases refused
    all_goals exact ⟨rfl, rfl⟩

end StaticHttp.Draft
