import StaticHttp.Draft.RequestLine
import StaticHttp.Proofs.Reach
import StaticHttp.Proofs.Scan
/-! Reading the request line, byte by byte: what a byte may change in a draft,
which byte ends the line, and that no byte is judged by what stands behind it. -/
namespace StaticHttp.Draft

structure LineEffect (buffer : Bytes) (d : Draft) (position : Nat) (e : Draft) : Prop where
  mark : e.mark = d.mark ∨ e.mark = position
  target : e.target = d.target ∨ Target.split buffer (.range d.mark position) = .ok e.target
  frame : e = { d with
    line := e.line, field := e.field, mark := e.mark, cursor := e.cursor
    method := e.method, target := e.target, version := e.version }

theorem lineEffect (buffer : Bytes) (d : Draft) (position : Nat) (b : UInt8) :
    (lineByte buffer d position b).Leaves (LineEffect buffer d position) := by
  cases state : d.line with
  | start =>
    simp only [lineByte, state]
    split
    · exact ⟨.inr rfl, .inl rfl, rfl⟩
    · exact ⟨.inl rfl, .inl rfl, rfl⟩
  | beforeTarget =>
    simp only [lineByte, state]
    split
    · exact ⟨.inl rfl, .inl rfl, rfl⟩
    · split
      · exact ⟨.inl rfl, .inl rfl, rfl⟩
      · exact ⟨.inr rfl, .inl rfl, rfl⟩
  | target =>
    simp only [lineByte, state, targetByte]
    split
    · split
      · rename_i target parted
        exact ⟨.inl rfl, .inr parted, rfl⟩
      · exact ⟨.inl rfl, .inl rfl, rfl⟩
    · split
      all_goals exact ⟨.inl rfl, .inl rfl, rfl⟩
  | protocol rest =>
    simp only [lineByte, state, protocolByte]
    repeat' split
    all_goals exact ⟨.inl rfl, .inl rfl, rfl⟩
  | finished => 
    simp only [lineByte, state]
    exact ⟨.inl rfl, .inl rfl, rfl⟩
  | method | beforeVersion | majorFirst | major | minorFirst | minor | lineEnd =>
    simp only [lineByte, state, methodByte, majorByte, minorByte]
    repeat' split
    all_goals exact ⟨.inl rfl, .inl rfl, rfl⟩

theorem lineParked (buffer : Bytes) {d : Draft} (position : Nat) (b : UInt8) (n : Nat)
    (unfinished : d.line ≠ .finished) :
    lineByte buffer (d.parked n) position b = (lineByte buffer d position b).parked n := by
  cases state : d.line with
  | finished => exact absurd state unfinished
  | protocol rest =>
    simp only [lineByte, parkedLine, state, protocolByte]
    repeat' split
    all_goals rfl
  | method =>
    simp only [lineByte, parkedLine, state, methodByte]
    by_cases letter : Byte.isLetter b ∧ d.mark ≤ position ∧ position - d.mark < Method.longest
    · rw [if_pos letter]
      exact if_pos letter
    · rw [if_neg letter]
      refine (if_neg letter).trans ?_
      simp only [parkedMark]
      repeat' split
      all_goals rfl
  | start | beforeTarget | target | beforeVersion | majorFirst | major | minorFirst | minor | lineEnd =>
    simp only [lineByte, parkedLine, parkedMark, parkedVersion, state, targetByte, majorByte, minorByte]
    repeat' split
    all_goals rfl

theorem lineStable {buffer : Bytes} {d : Draft} {position : Nat} (mark : d.mark ≤ buffer.length)
    (inside : position ≤ buffer.length) (more : Bytes) (b : UInt8) :
    lineByte (buffer ++ more) d position b = lineByte buffer d position b := by
  have token : (Span.range d.mark position).reach ≤ buffer.length := Span.reachRange mark inside
  cases state : d.line with
  | method => simp only [lineByte, state, methodByte, Span.sliceAppend token]
  | target => simp only [lineByte, state, targetByte, Target.splitAppend token]
  | start | beforeTarget | beforeVersion | protocol | majorFirst | major | minorFirst | minor
    | lineEnd | finished => simp only [lineByte, state]

theorem extendLf (number : Nat) : Version.extend number Byte.lf = .error .invalidVersion := rfl

theorem lineLf (buffer : Bytes) {d : Draft} (position : Nat) (middle : d.line ≠ .lineEnd)
    (unfinished : d.line ≠ .finished) (letters : ∀ rest, d.line = .protocol rest → Byte.lf ∉ rest) :
    ∃ fault, lineByte buffer d position Byte.lf = .refuse d fault := by
  cases state : d.line with
  | lineEnd => exact absurd state middle
  | finished => exact absurd state unfinished
  | protocol rest =>
    have other := letters rest state
    have low : Byte.lower Byte.lf = Byte.lf := rfl
    simp only [lineByte, state, protocolByte, low]
    split
    · exact ⟨_, rfl⟩
    · rw [if_neg (by simpa using other)]
      exact ⟨_, rfl⟩
    · rw [if_neg fun same => other (by simp [← same])]
      exact ⟨_, rfl⟩
  | method => exact ⟨_, by simp only [lineByte, state, methodByte]; rfl⟩
  | start | beforeTarget | target | beforeVersion | majorFirst | major | minorFirst | minor => 
    simp only [lineByte, state, targetByte, majorByte, minorByte, extendLf]
    exact ⟨_, rfl⟩

theorem lineStop {buffer : Bytes} {d e : Draft} {position : Nat} {b : UInt8} (unfinished : d.line ≠ .finished)
    (stopped : lineByte buffer d position b = .stop e ()) :
    d.line = .lineEnd ∧ b = Byte.lf ∧
      e = { d with line := .finished, field := .start, cursor := position + 1 } := by
  cases state : d.line with
  | finished => exact absurd state unfinished
  | lineEnd =>
    simp only [lineByte, state] at stopped
    split at stopped
    · rename_i lf
      cases stopped
      exact ⟨rfl, lf, rfl⟩
    · contradiction
  | protocol rest =>
    simp only [lineByte, state, protocolByte] at stopped
    repeat' split at stopped
    all_goals contradiction
  | start | method | beforeTarget | target | beforeVersion | majorFirst | major | minorFirst | minor =>
    simp only [lineByte, state, methodByte, targetByte, majorByte, minorByte] at stopped
    repeat' split at stopped
    all_goals contradiction

theorem extendFault {number : Nat} {b : UInt8} {fault : Fault} (refused : Version.extend number b = .error fault) :
    fault = .unsupportedVersion ∨ fault = .invalidVersion := by
  unfold Version.extend at refused
  split at refused
  · simp only at refused
    split at refused
    · cases refused
      exact .inl rfl
    · contradiction
  · cases refused
    exact .inr rfl

theorem splitFault {buffer : Bytes} {whole : Span} {fault : Fault}
    (refused : Target.split buffer whole = .error fault) : fault = .invalidUrl := by
  unfold Target.split at refused
  repeat' split at refused
  all_goals cases refused
  all_goals rfl

def lineFaults : List Fault := [.invalidMethod, .invalidUrl, .invalidVersion, .unsupportedVersion]

theorem lineRefuse {buffer : Bytes} {d e : Draft} {position : Nat} {b : UInt8} {fault : Fault}
    (refused : lineByte buffer d position b = .refuse e fault) : e = d ∧ fault ∈ lineFaults := by
  cases state : d.line with
  | target =>
    simp only [lineByte, state, targetByte] at refused
    repeat' split at refused
    all_goals cases refused
    · rename_i parted
      exact ⟨rfl, by simp [splitFault parted, lineFaults]⟩
    · exact ⟨rfl, by decide⟩
  | majorFirst | major | minorFirst | minor =>
    simp only [lineByte, state, majorByte, minorByte] at refused
    repeat' split at refused
    all_goals cases refused
    all_goals
      rename_i extended
      rcases extendFault extended with rfl | rfl
      · exact ⟨rfl, by decide⟩
      · exact ⟨rfl, by decide⟩
  | protocol rest =>
    simp only [lineByte, state, protocolByte] at refused
    repeat' split at refused
    all_goals cases refused
    all_goals exact ⟨rfl, by decide⟩
  | start | method | beforeTarget | beforeVersion | lineEnd | finished =>
    simp only [lineByte, state, methodByte] at refused
    repeat' split at refused
    all_goals cases refused
    all_goals exact ⟨rfl, by decide⟩

/- What is known of a draft inside the request line. The letters of the protocol
name that are still to come have no LF among them, so no LF is taken for one. -/
structure InLine (d : Draft) (text : Bytes) : Prop where
  within : d.Within text.length
  unfinished : d.line ≠ .finished
  letters : ∀ rest, d.line = .protocol rest → Byte.lf ∉ rest
  oneLine : Byte.lf ∉ text
  untold : d.bodyRead = 0 ∧ d.fields = [] ∧ d.contentLength = 0

theorem freshInLine : InLine {} [] := ⟨freshWithin 0, by simp, by simp, by simp, rfl, rfl, rfl⟩

theorem LineEffect.within {text : Bytes} {b : UInt8} {d e : Draft} (effect : LineEffect (text ++ [b]) d text.length e)
    (within : d.Within text.length) : e.Within (text ++ [b]).length := by
  have grown : d.Within (text ++ [b]).length := within.mono (by simp)
  have mark : e.mark ≤ (text ++ [b]).length := by
    rcases effect.mark with same | here
    · exact same ▸ grown.mark
    · simp [here]
  have target : e.target.Within (text ++ [b]).length := by
    rcases effect.target with same | parted
    · exact same ▸ grown.target
    · exact (Target.splitWithin parted).mono (Span.reachRange grown.mark (by simp))
  rw [effect.frame]
  exact ⟨mark, grown.name, grown.value, target, grown.fields⟩

theorem lineNext {buffer : Bytes} {d e : Draft} {position : Nat} {b : UInt8} (unfinished : d.line ≠ .finished)
    (letters : ∀ rest, d.line = .protocol rest → Byte.lf ∉ rest)
    (next : lineByte buffer d position b = .next e) :
    e.line ≠ .finished ∧ ∀ rest, e.line = .protocol rest → Byte.lf ∉ rest := by
  cases state : d.line with
  | finished => exact absurd state unfinished
  | beforeVersion =>
    simp only [lineByte, state] at next
    split at next
    · cases next
      simp [state]
    · split at next
      · cases next
        simp only [ne_eq, reduceCtorEq, not_false_eq_true, LineState.protocol.injEq, forall_eq', true_and]
        decide
      · contradiction
  | protocol rest =>
    have other := letters rest state
    simp only [lineByte, state, protocolByte] at next
    split at next
    · contradiction
    · split at next
      · cases next
        simp
      · contradiction
    · split at next
      · cases next
        simpa using fun inside => other (List.mem_cons_of_mem _ inside)
      · contradiction
  | start | method | beforeTarget | target | majorFirst | major | minorFirst | minor | lineEnd =>
    simp only [lineByte, state, methodByte, targetByte, majorByte, minorByte] at next
    repeat' split at next
    all_goals cases next
    all_goals simp [state]

theorem InLine.next {text : Bytes} {d e : Draft} {b : UInt8} (inLine : InLine d text)
    (next : lineByte (text ++ [b]) d text.length b = .next e) : InLine e (text ++ [b]) := by
  have effect := lineEffect (text ++ [b]) d text.length b
  rw [next] at effect
  obtain ⟨unfinished, letters⟩ := lineNext inLine.unfinished inLine.letters next
  have untold : e.bodyRead = 0 ∧ e.fields = [] ∧ e.contentLength = 0 := by
    rw [effect.frame]
    exact inLine.untold
  refine ⟨effect.within inLine.within, unfinished, letters, fun ended => ?_, untold⟩
  rcases List.mem_append.mp ended with earlier | last
  · exact inLine.oneLine earlier
  · obtain rfl : Byte.lf = b := by simpa using last
    by_cases middle : d.line = .lineEnd
    · simp [lineByte, middle] at next
    · obtain ⟨fault, refused⟩ := lineLf (text ++ [Byte.lf]) text.length middle inLine.unfinished inLine.letters
      rw [refused] at next
      contradiction

theorem lineSteady : Steady lineByte InLine where
  alike alike inLine := by
    rw [alike.eqParked]
    exact ⟨inLine.within.parked _, inLine.unfinished, inLine.letters, inLine.oneLine, inLine.untold⟩
  blind b alike inLine := by
    rw [alike.eqParked, lineParked _ _ b _ inLine.unfinished]
    exact Verdict.alikeParked _ _
  stable b rest inLine :=
    lineStable (Nat.le_trans inLine.within.mark (by simp)) (by simp) rest b
  next := InLine.next

end StaticHttp.Draft
