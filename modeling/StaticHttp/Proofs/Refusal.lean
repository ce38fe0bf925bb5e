import StaticHttp.Proofs.LinePieces
import StaticHttp.Proofs.LineGrammar
/-! A refused request line that is read again. A refused draft has the cursor that it was
called with and the state in which it was refused: the same bytes are read another time,
by a reader that takes them for later ones. From every state but one it comes to a byte
that it refuses, and so does every call behind that one. -/
namespace StaticHttp

namespace Byte

theorem solidFolded {b letter : UInt8} (folded : lower b = letter) (solid : isBlank letter = false) : isBlank b = false := by
  refine Bool.eq_false_iff.mpr fun blank => ?_
  have bytes : b = space ∨ b = tab := by simpa [isBlank] using blank
  have same : lower b = b := by
    rcases bytes with rfl | rfl <;> rfl
  rw [← folded, same, blank] at solid
  contradiction

end Byte

namespace Draft

def Barred (d : Draft) (buffer : Bytes) : Prop :=
  ∃ closed : Draft → Prop, closed d ∧
    ∀ e, closed e → ∀ rest, ∃ f fault, e.readRequestLine (buffer ++ rest) = (f, .failed fault) ∧ closed f

def Refuses (d : Draft) (text : Bytes) (b : UInt8) : Prop :=
  ∀ rest, ∃ fault, lineByte (text ++ b :: rest) d text.length b = .refuse d fault

variable {d e f : Draft} {buffer seen text run rest tail : Bytes} {b c : UInt8}

theorem Barred.call (barred : Barred d buffer) (bytes : Bytes) :
    ∃ f fault, d.readRequestLine (buffer ++ bytes) = (f, .failed fault) ∧ Barred f (buffer ++ bytes) := by
  obtain ⟨closed, here, again⟩ := barred
  obtain ⟨f, fault, read, further⟩ := again d here bytes
  refine ⟨f, fault, read, closed, further, fun e within rest => ?_⟩
  rw [List.append_assoc]
  exact again e within (bytes ++ rest)

theorem Barred.step
    (first : ∀ rest, ∃ f fault, d.readRequestLine (buffer ++ rest) = (f, .failed fault) ∧ Barred f buffer) :
    Barred d buffer := by
  refine ⟨fun e => e = d ∨ Barred e buffer, .inl rfl, ?_⟩
  rintro e (rfl | ⟨closed, here, again⟩) rest
  · obtain ⟨f, fault, read, barred⟩ := first rest
    exact ⟨f, fault, read, .inr barred⟩
  · obtain ⟨f, fault, read, further⟩ := again e here rest
    exact ⟨f, fault, read, .inr ⟨closed, further, again⟩⟩

theorem readFrom (cursor : d.cursor = seen.length) (bytes : Bytes) :
    d.readRequestLine (seen ++ bytes) = scan (lineByte (seen ++ bytes)) d seen.length bytes := by
  rw [readRequestLine, resume, cursor, List.drop_left]

theorem scanRefuse {step : Draft → Nat → UInt8 → Verdict Unit} {position : Nat} {fault : Fault}
    (refused : step d position b = .refuse e fault) (rest : Bytes) :
    scan step d position (b :: rest) = (e, .failed fault) := by
  simp only [scan, refused]

theorem barredStill (cursor : d.cursor = seen.length)
    (stays : ∀ held, ∀ c ∈ run, ∀ q, seen.length ≤ q → q < seen.length + run.length → lineByte held d q c = .next d)
    (refused : Refuses d (seen ++ run) b) (parts : buffer = seen ++ (run ++ b :: tail)) : Barred d buffer := by
  refine ⟨(· = d), rfl, ?_⟩
  rintro e rfl rest
  obtain ⟨fault, judged⟩ := refused (tail ++ rest)
  refine ⟨e, fault, ?_, rfl⟩
  have whole : buffer ++ rest = seen ++ (run ++ b :: (tail ++ rest)) := by simp [parts]
  rw [List.length_append, List.append_assoc] at judged
  rw [whole, readFrom cursor, scanRun (stays _), scanRefuse judged]

theorem barredAtOnce (cursor : d.cursor = seen.length) (refused : Refuses d seen b) (parts : buffer = seen ++ b :: tail) :
    Barred d buffer := by
  have none : Refuses d (seen ++ []) b := by rwa [List.append_nil]
  exact barredStill cursor (by simp) none parts

structure Fence (states : LineState → Prop) (bars : UInt8 → Prop) : Prop where
  unfinished : ¬ states .finished
  keeps {held : Bytes} {d e : Draft} {position : Nat} {b : UInt8} :
    states d.line → lineByte held d position b = .next e → states e.line
  refuses {held : Bytes} {d : Draft} {position : Nat} {b : UInt8} :
    states d.line → bars b → ∃ fault, lineByte held d position b = .refuse d fault

namespace Fence
variable {states : LineState → Prop} {bars : UInt8 → Prop}

theorem refused (fence : Fence states bars) (within : states d.line) (oneLine : Byte.lf ∉ run) (barred : ∃ b ∈ run, bars b)
    (position : Nat) (rest : Bytes) :
    ∃ f fault, scan (lineByte buffer) d position (run ++ rest) = (f, .failed fault) ∧ states f.line ∧
      f.cursor = d.cursor := by
  -- On the run: a byte that is not refused leads on to one that is barred.
  induction run generalizing d position with
  | nil => simp at barred
  | cons b run ih =>
    have kept := lineKeepsCursor buffer d position b
    rw [List.cons_append]
    cases judged : lineByte buffer d position b with
    | next e =>
      rw [judged, Verdict.parked, Verdict.next.injEq] at kept
      have ahead : ∃ c ∈ run, bars c := by
        obtain ⟨c, inside, barred⟩ := barred
        rcases List.mem_cons.mp inside with rfl | later
        · have refused : ∃ fault, lineByte buffer d position c = .refuse d fault := fence.refuses within barred
          simp [judged] at refused
        · exact ⟨c, later, barred⟩
      obtain ⟨f, fault, scanned, further, cursor⟩ :=
        ih (fence.keeps within judged) (fun inside => oneLine (List.mem_cons_of_mem _ inside)) ahead (position + 1)
      rw [scanNext judged]
      exact ⟨f, fault, scanned, further, cursor.trans (by rw [kept]; rfl)⟩
    | stop e result =>
      have unfinished : d.line ≠ .finished := fun finished => fence.unfinished (finished ▸ within)
      exact absurd (by simp [(lineStop unfinished judged).2.1]) oneLine
    | refuse e fault =>
      obtain ⟨rfl, _⟩ := lineRefuse judged
      exact ⟨e, fault, scanRefuse judged _, within, rfl⟩

theorem barred (fence : Fence states bars) (within : states d.line) (cursor : d.cursor = seen.length)
    (oneLine : Byte.lf ∉ run) (barred : ∃ b ∈ run, bars b) (tail : Bytes) : Barred d (seen ++ (run ++ tail)) := by
  refine ⟨fun e => states e.line ∧ e.cursor = seen.length, ⟨within, cursor⟩, fun e ⟨within, cursor⟩ rest => ?_⟩
  rw [List.append_assoc, List.append_assoc, readFrom cursor]
  obtain ⟨f, fault, scanned, further, same⟩ := fence.refused within oneLine barred seen.length (tail ++ rest)
  exact ⟨f, fault, scanned, further, same.trans cursor⟩

end Fence

inductive Late : LineState → Prop where
  | protocol {letters : Bytes} (solid : ∀ b ∈ letters, Byte.isBlank b = false) : Late (.protocol letters)
  | majorFirst : Late .majorFirst
  | major : Late .major
  | minorFirst : Late .minorFirst
  | minor : Late .minor
  | lineEnd : Late .lineEnd

theorem Late.ofAll {letters : Bytes} (solid : letters.all (fun b => !Byte.isBlank b) = true) : Late (.protocol letters) :=
  .protocol fun b inside => by simpa using List.all_eq_true.mp solid b inside

theorem blankLate {held : Bytes} {position : Nat} (late : Late d.line) (blank : Byte.isBlank b = true) :
    ∃ fault, lineByte held d position b = .refuse d fault := by
  have bytes : b = Byte.space ∨ b = Byte.tab := by simpa [Byte.isBlank] using blank
  have noDigit (n : Nat) : Version.extend n b = .error .invalidVersion := by
    rcases bytes with rfl | rfl <;> rfl
  have noMark : b ≠ Byte.dot ∧ b ≠ Byte.cr ∧ b ≠ Byte.lf := by
    rcases bytes with rfl | rfl <;> decide
  generalize state : d.line = line at late
  cases late with
  | @protocol letters solid =>
    have other (letter : UInt8) (inside : letter ∈ letters) : Byte.lower b ≠ letter := fun same =>
      absurd (Byte.solidFolded same (solid letter inside)) (by simp [blank])
    simp only [lineByte, state, protocolByte]
    split
    · exact ⟨_, rfl⟩
    · exact ⟨_, if_neg (other _ (by simp))⟩
    · exact ⟨_, if_neg (other _ (by simp))⟩
  | majorFirst | major | minorFirst | minor | lineEnd =>
    simp only [lineByte, state, majorByte, minorByte, noDigit, if_neg noMark.1, if_neg noMark.2.1, if_neg noMark.2.2]
    exact ⟨_, rfl⟩

theorem lateNext {held : Bytes} {position : Nat} (late : Late d.line) (next : lineByte held d position b = .next e) :
    Late e.line := by
  generalize state : d.line = line at late
  cases late with
  | @protocol letters solid =>
    simp only [lineByte, state, protocolByte] at next
    repeat' split at next
    all_goals cases next
    · exact .majorFirst
    · exact .protocol fun c inside => solid c (List.mem_cons_of_mem _ inside)
  | majorFirst =>
    simp only [lineByte, state, majorByte] at next
    split at next <;> cases next
    exact .major
  | major =>
    simp only [lineByte, state, majorByte] at next
    split at next
    · cases next
      exact .minorFirst
    · split at next <;> cases next
      exact .major
  | minorFirst =>
    simp only [lineByte, state, minorByte] at next
    split at next <;> cases next
    exact .minor
  | minor =>
    simp only [lineByte, state, minorByte] at next
    split at next
    · cases next
      exact .lineEnd
    · split at next <;> cases next
      exact .minor
  | lineEnd =>
    simp only [lineByte, state] at next
    split at next <;> contradiction

theorem lateFence : Fence Late fun b => Byte.isBlank b = true where
  unfinished := nofun
  keeps := lateNext
  refuses := blankLate

inductive BehindDot : LineState → Prop where
  | minorFirst : BehindDot .minorFirst
  | minor : BehindDot .minor
  | lineEnd : BehindDot .lineEnd

theorem dotFence : Fence BehindDot (· = Byte.dot) where
  unfinished := nofun
  keeps {held d e position b} behind next := by
    generalize state : d.line = line at behind
    cases behind with
    | minorFirst =>
      simp only [lineByte, state, minorByte] at next
      split at next <;> cases next
      exact .minor
    | minor =>
      simp only [lineByte, state, minorByte] at next
      split at next
      · cases next
        exact .lineEnd
      · split at next <;> cases next
        exact .minor
    | lineEnd =>
      simp only [lineByte, state] at next
      split at next <;> contradiction
  refuses {held d position b} behind dot := by
    subst dot
    have noDigit (n : Nat) : Version.extend n Byte.dot = .error .invalidVersion := rfl
    have noMark : Byte.dot ≠ Byte.cr ∧ Byte.dot ≠ Byte.lf := by decide
    generalize state : d.line = line at behind
    cases behind with
    | minorFirst | minor | lineEnd =>
      simp only [lineByte, state, minorByte, noDigit, if_neg noMark.1, if_neg noMark.2]
      exact ⟨_, rfl⟩

def Spelled (d : Draft) (text : Bytes) : Prop := d.line = .method → ∀ b ∈ text, Byte.isLetter b = true

def Known (d : Draft) (text : Bytes) : Prop := (InLine d text ∧ LineRead d.line d.mark d.version text) ∧ Spelled d text

theorem Spelled.next (read : LineRead d.line d.mark d.version text) (spelled : Spelled d text)
    (next : lineByte (text ++ [b]) d text.length b = .next e) : Spelled e (text ++ [b]) := by
  intro inside
  cases state : d.line with
  | start =>
    rw [state] at read
    generalize d.version = version at read
    cases read
    simp only [lineByte, state] at next
    split at next
    · rename_i letter
      exact List.forall_mem_singleton.mpr letter
    · contradiction
  | method =>
    simp only [lineByte, state, methodByte] at next
    split at next
    · rename_i letter
      exact List.forall_mem_append.mpr ⟨spelled state, List.forall_mem_singleton.mpr letter.1⟩
    · repeat' split at next
      all_goals cases next
      contradiction
  | beforeTarget | target | beforeVersion | protocol | majorFirst | major | minorFirst | minor | lineEnd | finished =>
    simp only [lineByte, state, targetByte, protocolByte, majorByte, minorByte] at next
    repeat' split at next
    all_goals cases next
    all_goals simp [state] at inside

theorem knownSteady : Steady lineByte Known :=
  grammarSteady.sharpen (fun alike spelled => by rw [alike.eqParked]; exact spelled) fun known spelled next =>
    spelled.next known.2 next

theorem freshKnown : Known {} [] := ⟨freshRead, nofun⟩

theorem LineWaits.known (waits : LineWaits d seen) : Known d seen := by
  induction waits with
  | fresh => exact freshKnown
  | @more d e seen bytes waits read ih =>
    obtain ⟨cursor, _⟩ := waits.inLine
    exact (resumeMore knownSteady (by simp [cursor]) (by simpa [cursor] using ih) read).2.1

theorem Known.refuses {fault : Fault} (known : Known d text)
    (refused : lineByte (text ++ [b]) d text.length b = .refuse e fault) : Refuses d text b := by
  intro rest
  have judged := knownSteady.stable b rest known
  rw [List.append_assoc, List.singleton_append, refused] at judged
  obtain ⟨rfl, _⟩ := lineRefuse judged
  exact ⟨fault, judged⟩

theorem LineWaits.refused {bytes : Bytes} {fault : Fault} (waits : LineWaits d seen)
    (read : d.readRequestLine (seen ++ bytes) = (e, .failed fault)) :
    ∃ run c tail, bytes = run ++ c :: tail ∧ e.cursor = seen.length ∧ Known e (seen ++ run) ∧ Refuses e (seen ++ run) c := by
  have cursor := waits.inLine.1
  have stays : e.cursor = d.cursor := scanFailed (lineKeepsCursor _) read
  obtain ⟨f, run, after, parts, known, halt⟩ := walkHalts knownSteady waits.known bytes
  have walked : walk lineByte d seen bytes = (e, .failed fault) := (readFrom cursor bytes).symm.trans read
  rw [walked] at halt
  cases halt with
  | @failed _ c _ tail refused =>
    obtain ⟨rfl, _⟩ := lineRefuse refused
    exact ⟨run, c, tail, parts, stays.trans cursor, known, known.refuses refused⟩

end Draft
end StaticHttp
