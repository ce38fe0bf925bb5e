import StaticHttp.Proofs.Rewound
/-! A reader that is called again although it has refused. There is one line that it takes
then: a request line without the second letter of its protocol name, cut behind the first
letter. The refused call has gone on with the next letter, and that letter is read once more
when the bytes are read again: the line is taken as it would be with the letter there. -/
namespace StaticHttp

namespace Bytes

def behindTarget (text : Bytes) : Bytes :=
  let behindMethod := (text.dropWhile fun b => !Byte.isBlank b).dropWhile Byte.isBlank
  (behindMethod.dropWhile fun b => !Byte.isBlank b).dropWhile Byte.isBlank

theorem dropRun {p : UInt8 → Bool} {run rest : Bytes} (each : ∀ b ∈ run, p b = true)
    (stops : ∀ b ∈ rest.head?, p b = false) : (run ++ rest).dropWhile p = rest := by
  rw [List.dropWhile_append_of_pos each]
  cases rest with
  | nil => rfl
  | cons b rest => simp [stops b rfl]

theorem dropAll {p : UInt8 → Bool} {run : Bytes} (each : ∀ b ∈ run, p b = true) : run.dropWhile p = [] := by
  have whole : (run ++ []).dropWhile p = [] := dropRun each (by simp)
  rwa [List.append_nil] at whole

end Bytes

namespace LineFront

theorem behindTarget (front : LineFront) {rest : Bytes} (solid : ∀ b ∈ rest.head?, Byte.isBlank b = false) :
    Bytes.behindTarget (front.text ++ rest) = rest := by
  obtain ⟨b, blanks, space⟩ := List.exists_cons_of_ne_nil front.spaceSome
  have blank := front.spaceBlank
  rw [space, List.forall_mem_cons] at blank
  have parts : front.text ++ rest =
      front.method.token ++ ((Byte.space :: front.gap) ++ (front.whole ++ (front.space ++ rest))) := by
    simp [text, opening]
  have token : ∀ b ∈ front.method.token, (!Byte.isBlank b) = true := fun b inside => by
    simp [(Byte.letterPlain (front.method.tokenLetter b inside)).1]
  have whole : ∀ b ∈ front.whole, (!Byte.isBlank b) = true := by
    refine List.forall_mem_cons.mpr ⟨rfl, fun b inside => ?_⟩
    simp [(front.targetUnbroken b inside).1]
  have gap : ∀ b ∈ Byte.space :: front.gap, Byte.isBlank b = true := List.forall_mem_cons.mpr ⟨rfl, front.gapBlank⟩
  rw [Bytes.behindTarget, parts, Bytes.dropRun token (by simp; rfl), Bytes.dropRun gap (by simp [LineFront.whole]; rfl),
    Bytes.dropRun whole (by simp [space, blank.1]), Bytes.dropRun front.spaceBlank solid]

theorem same {front other : LineFront} {rest others : Bytes} (solid : ∀ b ∈ rest.head?, Byte.isBlank b = false)
    (otherSolid : ∀ b ∈ others.head?, Byte.isBlank b = false) (parts : front.text ++ rest = other.text ++ others) :
    front.text = other.text ∧ rest = others := by
  have behind : rest = others := by
    rw [← front.behindTarget solid, parts, other.behindTarget otherSolid]
  exact ⟨List.append_cancel_right (behind ▸ parts), behind⟩

end LineFront

theorem Bytes.lastLetters {letters : Bytes} (named : fold letters = ascii "tp/") :
    ∃ third fourth fifth, letters = [third, fourth, fifth] ∧ Byte.lower third = 0x74 ∧ Byte.lower fourth = 0x70 := by
  have folded : letters.map Byte.lower = [0x74, 0x70, 0x2F] := named
  obtain ⟨third, _, rfl, ofT, folded⟩ := List.map_eq_cons_iff.mp folded
  obtain ⟨fourth, _, rfl, ofP, folded⟩ := List.map_eq_cons_iff.mp folded
  obtain ⟨fifth, rfl, _⟩ := List.map_eq_singleton_iff.mp folded
  exact ⟨third, fourth, fifth, rfl, ofT, ofP⟩

namespace LineStart
variable (start : LineStart)

theorem protocolLetters : ∃ first second letters, start.protocol = first :: second :: letters ∧
    Byte.lower first = 0x68 ∧ Byte.lower second = 0x74 ∧ Bytes.fold letters = ascii "tp/" := by
  have folded : start.protocol.map Byte.lower = [0x68, 0x74, 0x74, 0x70, 0x2F] :=
    (Bytes.sameLettersIff _ _).mp start.protocolNamed
  obtain ⟨first, others, protocol, one, folded⟩ := List.map_eq_cons_iff.mp folded
  obtain ⟨second, letters, rfl, two, others⟩ := List.map_eq_cons_iff.mp folded
  exact ⟨first, second, letters, protocol, one, two, others⟩

theorem protocolSolid (rest : Bytes) : ∀ b ∈ (start.protocol ++ rest).head?, Byte.isBlank b = false := by
  obtain ⟨first, _, _, same, folded, _⟩ := start.protocolLetters
  rw [same]
  simpa using Byte.solidFolded folded rfl

end LineStart

namespace LineText
variable (line : LineText)

def numbers : Bytes := line.major ++ Byte.dot :: (line.minor ++ [Byte.cr, Byte.lf])

theorem versionLetters : ∃ first second letters, line.versionText = first :: second :: (letters ++ line.numbers) ∧
    Byte.lower first = 0x68 ∧ Byte.lower second = 0x74 ∧ Bytes.fold letters = ascii "tp/" := by
  obtain ⟨first, second, letters, protocol, folded⟩ := line.toLineStart.protocolLetters
  have parts : line.versionText = line.toLineStart.protocol ++ line.numbers := rfl
  exact ⟨first, second, letters, by rw [parts, protocol]; rfl, folded⟩

theorem versionSolid (rest : Bytes) : ∀ b ∈ (line.versionText ++ rest).head?, Byte.isBlank b = false := by
  have parts : line.versionText ++ rest = line.toLineStart.protocol ++ (line.numbers ++ rest) := List.append_assoc _ _ _
  rw [parts]
  exact line.toLineStart.protocolSolid _

end LineText

namespace Draft

/-- What has been seen ends behind the first letter of a protocol name, and what comes behind
it goes on with the third letter as a request line does. -/
def Skips (seen buffer : Bytes) : Prop :=
  ∃ (line : LineText) (first second : UInt8) (rest : Bytes), line.Supported ∧
    line.versionText = first :: second :: rest ∧ seen = line.toLineFront.text ++ [first] ∧ seen ++ rest <+: buffer

variable {d e f : Draft} {seen buffer bytes held : Bytes} {b c : UInt8}

theorem Skips.mono {longer : Bytes} (skips : Skips seen buffer) (grown : buffer <+: longer) : Skips seen longer := by
  obtain ⟨line, first, second, rest, supported, version, ends, inside⟩ := skips
  exact ⟨line, first, second, rest, supported, version, ends, inside.trans grown⟩

theorem Skips.letters (skips : Skips seen buffer) : ∃ (line : LineText) (first third fourth fifth : UInt8),
    line.Supported ∧ (Byte.lower first = 0x68 ∧ Byte.lower third = 0x74 ∧ Byte.lower fourth = 0x70) ∧
      Bytes.fold [third, fourth, fifth] = ascii "tp/" ∧ seen = line.toLineFront.text ++ [first] ∧
      seen ++ ([third, fourth, fifth] ++ line.numbers) <+: buffer := by
  obtain ⟨line, first, second, rest, supported, version, ends, inside⟩ := skips
  obtain ⟨h, t, letters, spelled, ofH, _, named⟩ := line.versionLetters
  rw [version, List.cons.injEq, List.cons.injEq] at spelled
  obtain ⟨rfl, _, rfl⟩ := spelled
  obtain ⟨third, fourth, fifth, rfl, ofT, ofP⟩ := Bytes.lastLetters named
  exact ⟨line, first, third, fourth, fifth, supported, ⟨ofH, ofT, ofP⟩, named, ends, inside⟩

theorem Skips.noLine (skips : Skips seen buffer) : ¬ ∃ line : LineText, line.Supported ∧ line.text <+: buffer := by
  rintro ⟨other, _, more, whole⟩
  obtain ⟨line, first, third, fourth, fifth, _, ⟨ofH, _, ofP⟩, _, rfl, further, rfl⟩ := skips.letters
  obtain ⟨_, t, others, otherSpelled, _, _, otherNamed⟩ := other.versionLetters
  obtain ⟨otherThird, _, _, rfl, ofT, _⟩ := Bytes.lastLetters otherNamed
  have parts : line.toLineFront.text ++ first :: ([third, fourth, fifth] ++ line.numbers ++ further) =
      other.toLineFront.text ++ (other.versionText ++ more) := by
    rw [← other.textParts, whole]
    simp
  -- Its third letter is a p where that of a request line is a t.
  have letter := (LineFront.same (by simpa using Byte.solidFolded ofH rfl) (other.versionSolid more) parts).2
  simp only [otherSpelled, List.cons_append, List.cons.injEq] at letter
  rw [letter.2.2.1, ofT] at ofP
  exact absurd ofP (by decide)

def outcomes : Draft → Bytes → List Bytes → List (Outcome Unit)
  | _, _, [] => []
  | d, seen, bytes :: rest =>
      (d.readRequestLine (seen ++ bytes)).2 :: outcomes (d.readRequestLine (seen ++ bytes)).1 (seen ++ bytes) rest

def reached : Draft → Bytes → List Bytes → Draft
  | d, _, [] => d
  | d, seen, bytes :: rest => reached (d.readRequestLine (seen ++ bytes)).1 (seen ++ bytes) rest

theorem Barred.neverFound (barred : Barred d buffer) (later : List Bytes) : .found () ∉ outcomes d buffer later := by
  induction later generalizing d buffer with
  | nil => simp [outcomes]
  | cons bytes later ih =>
    obtain ⟨f, fault, read, further⟩ := barred.call bytes
    simp only [outcomes, read, List.mem_cons, reduceCtorEq, false_or]
    exact ih further

theorem readFinished (finished : d.line = .finished) (buffer : Bytes) :
    (d.readRequestLine buffer).1.line = .finished ∧ ∀ fault, (d.readRequestLine buffer).2 ≠ .failed fault := by
  rw [readRequestLine, resume]
  cases buffer.drop d.cursor with
  | nil => exact ⟨finished, by simp [scan]⟩
  | cons b rest =>
    have stopped : lineByte buffer d d.cursor b = .stop d () := by simp only [lineByte, finished]
    rw [scanStop stopped]
    exact ⟨finished, by simp⟩

theorem foundFinished (waits : LineWaits d seen) (grown : seen <+: buffer)
    (found : (d.readRequestLine buffer).2 = .found ()) : (d.readRequestLine buffer).1.line = .finished := by
  obtain ⟨bytes, rfl⟩ := grown
  obtain ⟨cursor, known⟩ := waits.inLine
  obtain ⟨f, text, b, after, _, known, stopped⟩ :=
    resumeFound lineSteady (by simp [cursor]) (by simpa [cursor] using known) (Prod.ext rfl found)
  exact congrArg Draft.line (lineStop known.unfinished stopped).2.2

theorem reachedWaits {before : List Bytes} (known : LineWaits d seen ∨ d.line = .finished)
    (unrefused : ∀ fault, .failed fault ∉ outcomes d seen before) :
    LineWaits (reached d seen before) (seen ++ before.flatten) ∨ (reached d seen before).line = .finished := by
  induction before generalizing d seen with
  | nil => simpa [reached] using known
  | cons bytes before ih =>
    simp only [outcomes, List.mem_cons, not_or] at unrefused
    rw [reached, List.flatten_cons, ← List.append_assoc]
    refine ih ?_ fun fault => (unrefused fault).2
    rcases known with waits | finished
    · cases outcome : (d.readRequestLine (seen ++ bytes)).2 with
      | more => exact .inl (.more waits (Prod.ext rfl outcome))
      | found _ => exact .inr (foundFinished waits (List.prefix_append seen bytes) outcome)
      | failed fault => exact absurd outcome.symm (unrefused fault).1
    · exact .inr (readFinished finished _).1

theorem prefixCons {p : List Bytes → Prop} {bytes : Bytes} {later : List Bytes} :
    (∃ earlier, earlier ≠ [] ∧ earlier <+: bytes :: later ∧ p earlier) ↔
      p [bytes] ∨ ∃ earlier, earlier ≠ [] ∧ earlier <+: later ∧ p (bytes :: earlier) := by
  constructor
  · rintro ⟨earlier, some, front, holds⟩
    cases earlier with
    | nil => contradiction
    | cons first earlier =>
      obtain ⟨rfl, behind⟩ := List.cons_prefix_cons.mp front
      cases earlier with
      | nil => exact .inl holds
      | cons second earlier => exact .inr ⟨_, List.cons_ne_nil _ _, behind, holds⟩
  · rintro (holds | ⟨earlier, _, front, holds⟩)
    · exact ⟨[bytes], List.cons_ne_nil _ _, List.cons_prefix_cons.mpr ⟨rfl, List.nil_prefix⟩, holds⟩
    · exact ⟨bytes :: earlier, List.cons_ne_nil _ _, List.cons_prefix_cons.mpr ⟨rfl, front⟩, holds⟩

theorem LineWaits.barred {fault : Fault} {front : LineFront} {others : Bytes} (waits : LineWaits d seen)
    (past : seen = front.text ++ b :: c :: others) (solid : Byte.isBlank b = false)
    (read : d.readRequestLine (seen ++ bytes) = (e, .failed fault)) : Barred e (seen ++ bytes) := by
  obtain ⟨run, refusedByte, tail, rfl, cursor, known, refuses⟩ := waits.refused read
  rcases rewound known cursor refuses tail with barred | ⟨_, other, first, second, ofH, _, same, _⟩
  · exact barred
  · have letters := (LineFront.same (by simpa using solid) (by simpa using Byte.solidFolded ofH rfl) (past.symm.trans same)).2
    simp at letters

theorem LineWaits.foundLater {front : LineFront} {others : Bytes} (waits : LineWaits d seen)
    (past : seen = front.text ++ b :: c :: others) (solid : Byte.isBlank b = false) (grown : seen <+: held)
    (later : List Bytes) :
    .found () ∈ outcomes d held later ↔
      ∃ earlier, earlier ≠ [] ∧ earlier <+: later ∧ (d.readRequestLine (held ++ earlier.flatten)).2 = .found () := by
  induction later generalizing d seen held others with
  | nil =>
    simp only [outcomes, List.not_mem_nil, List.prefix_nil, false_iff]
    exact fun ⟨_, filled, empty, _⟩ => filled empty
  | cons bytes later ih =>
    have longer : seen <+: held ++ bytes := grown.trans (List.prefix_append held bytes)
    rw [prefixCons]
    simp only [outcomes, List.mem_cons, List.flatten_cons, List.flatten_nil, List.append_nil, ← List.append_assoc]
    cases read : d.readRequestLine (held ++ bytes) with
    | mk e outcome =>
      cases outcome with
      | more =>
        obtain ⟨further, _, onward⟩ := waits.again longer read
        obtain ⟨behind, rfl⟩ := grown
        have longer : seen ++ behind ++ bytes = front.text ++ b :: c :: (others ++ behind ++ bytes) := by simp [past]
        simp only [reduceCtorEq, false_or, ih further longer (List.prefix_refl _), (onward _).outcome]
      | found _ => simp
      | failed fault =>
        obtain ⟨behind, rfl⟩ := grown
        have barred : Barred e (seen ++ behind ++ bytes) := by
          rw [List.append_assoc] at read ⊢
          exact waits.barred past solid read
        have ended (rest : Bytes) := waits.ended longer (by rw [read]; nofun) rest
        simp only [ended, read, barred.neverFound later, reduceCtorEq, or_self, and_false, exists_false]

def lifted (d : Draft) : Draft := d.parked (d.cursor + 1)

def liftedVerdict : Verdict Unit → Verdict Unit
  | .next d => .next d.lifted
  | .stop d result => .stop d.lifted result
  | .refuse d fault => .refuse d.lifted fault

structure Ahead (n : Nat) (d : Draft) : Prop where
  late : Late d.line ∨ d.line = .finished
  behind : n ≤ d.cursor

theorem liftedByte (late : Late d.line ∨ d.line = .finished) (held other : Bytes) (position : Nat) (b : UInt8) :
    lineByte other d.lifted (position + 1) b = liftedVerdict (lineByte held d position b) := by
  rcases late with late | finished
  · generalize state : d.line = line at late
    cases late with
    | protocol | majorFirst | major | minorFirst | minor | lineEnd =>
      simp only [lineByte, lifted, parkedLine, parkedVersion, state, protocolByte, majorByte, minorByte]
      repeat' split
      all_goals rfl
  · simp only [lineByte, lifted, parkedLine, finished, liftedVerdict]

theorem Ahead.leaves {n position : Nat} (ahead : Ahead n d) (held : Bytes) (inside : n ≤ position) (b : UInt8) :
    (lineByte held d position b).Leaves (Ahead n) := by
  have kept := lineKeepsCursor held d position b
  cases judged : lineByte held d position b with
  | next e =>
    rw [judged, Verdict.parked, Verdict.next.injEq] at kept
    rcases ahead.late with late | finished
    · exact ⟨.inl (lateNext late judged), by rw [kept]; exact ahead.behind⟩
    · simp [lineByte, finished] at judged
  | stop e result =>
    by_cases finished : d.line = .finished
    · simp only [lineByte, finished, Verdict.stop.injEq, and_true] at judged
      exact judged ▸ ahead
    · obtain ⟨_, _, rfl⟩ := lineStop finished judged
      exact ⟨.inr rfl, Nat.le_succ_of_le inside⟩
  | refuse e fault =>
    obtain ⟨rfl, _⟩ := lineRefuse judged
    exact ahead

theorem scanLifted {n position : Nat} (ahead : Ahead n d) (held other : Bytes) (inside : n ≤ position) (bytes : Bytes) :
    scan (lineByte other) d.lifted (position + 1) bytes =
        ((scan (lineByte held) d position bytes).1.lifted, (scan (lineByte held) d position bytes).2) ∧
      Ahead n (scan (lineByte held) d position bytes).1 := by
  induction bytes generalizing d position with
  | nil => exact ⟨rfl, ahead.late, inside⟩
  | cons b bytes ih =>
    have left := ahead.leaves held inside b
    have judged := liftedByte ahead.late held other position b
    simp only [scan, judged]
    cases verdict : lineByte held d position b with
    | next e =>
      rw [verdict] at left
      exact ih left (Nat.le_succ_of_le inside)
    | stop e result =>
      rw [verdict] at left
      exact ⟨rfl, left⟩
    | refuse e fault =>
      rw [verdict] at left
      exact ⟨rfl, left⟩

theorem readLifted (ahead : Ahead seen.length d) (b : UInt8) (bytes : Bytes) :
    d.lifted.readRequestLine (seen ++ b :: bytes) =
        ((d.readRequestLine (seen ++ bytes)).1.lifted, (d.readRequestLine (seen ++ bytes)).2) ∧
      Ahead seen.length (d.readRequestLine (seen ++ bytes)).1 := by
  have further : (seen ++ b :: bytes).drop (d.cursor + 1) = (seen ++ bytes).drop d.cursor := by
    obtain ⟨more, cursor⟩ := Nat.exists_eq_add_of_le ahead.behind
    rw [cursor, Nat.add_assoc, List.drop_length_add_append, List.drop_length_add_append, List.drop_succ_cons]
  have read : d.lifted.readRequestLine (seen ++ b :: bytes) =
      scan (lineByte (seen ++ b :: bytes)) d.lifted (d.cursor + 1) ((seen ++ bytes).drop d.cursor) := by
    rw [← further]
    rfl
  rw [read]
  exact scanLifted ahead _ _ ahead.behind _

theorem outcomesLifted (ahead : Ahead seen.length d) (b : UInt8) (held : Bytes) (later : List Bytes) :
    outcomes d.lifted (seen ++ b :: held) later = outcomes d (seen ++ held) later := by
  induction later generalizing d held with
  | nil => rfl
  | cons bytes later ih =>
    obtain ⟨read, further⟩ := readLifted ahead b (held ++ bytes)
    simp only [outcomes, List.append_assoc, List.cons_append, read, ih further]

theorem Known.atFirst {front : LineFront} {first : UInt8} (known : Known d seen) (ofH : Byte.lower first = 0x68)
    (ends : seen = front.text ++ [first]) : d.line = .protocol protocolRest := by
  obtain ⟨⟨_, read⟩, spelled⟩ := known
  have solid : ∀ b ∈ [first].head?, Byte.isBlank b = false := by simpa using Byte.solidFolded ofH rfl
  have behind : Bytes.behindTarget seen = [first] := by rw [ends, front.behindTarget solid]
  have letters {bytes : Bytes} (each : ∀ b ∈ bytes, Byte.isLetter b = true) : ∀ b ∈ bytes, (!Byte.isBlank b) = true :=
    fun b inside => by simp [(Byte.letterPlain (each b inside)).1]
  have spaced {gap : Bytes} (blank : ∀ b ∈ gap, Byte.isBlank b = true) : ∀ b ∈ Byte.space :: gap, Byte.isBlank b = true :=
    List.forall_mem_cons.mpr ⟨rfl, blank⟩
  have past (start : LineStart) {rest : Bytes} (same : seen = start.text ++ rest) : False := by
    have parts : front.text ++ [first] = start.toLineFront.text ++ (start.protocol ++ rest) := by
      rw [← ends, same, LineStart.text, List.append_assoc]
    obtain ⟨_, _, _, letters, _⟩ := start.protocolLetters
    simpa [letters] using (LineFront.same solid (start.protocolSolid rest) parts).2
  cases d
  simp only at read
  cases read with
  | start => simp [Bytes.behindTarget] at behind
  | method =>
    rw [Bytes.behindTarget, Bytes.dropAll (letters (spelled rfl))] at behind
    simp at behind
  | beforeTarget m blank parts =>
    rw [parts, Bytes.behindTarget, Bytes.dropRun (letters m.tokenLetter) (by simp; rfl),
      Bytes.dropAll (spaced blank)] at behind
    simp at behind
  | @target mark text m gap whole blank some unbroken begun parts =>
    have stops : ∀ b ∈ whole.head?, Byte.isBlank b = false := fun b inside =>
      (unbroken b (List.mem_of_mem_head? inside)).1
    have none : (whole.dropWhile fun b => !Byte.isBlank b) = [] :=
      Bytes.dropAll fun b inside => by simp [(unbroken b inside).1]
    rw [parts, List.append_assoc, Bytes.behindTarget, Bytes.dropRun (letters m.tokenLetter) (by simp; rfl),
      Bytes.dropRun (spaced blank) stops, none] at behind
    simp at behind
  | beforeVersion front =>
    have nothing : Bytes.behindTarget (front.text ++ []) = [] := front.behindTarget (by simp)
    rw [List.append_nil, behind] at nothing
    contradiction
  | @protocol mark text other begun rest named parts =>
    have begunSolid : ∀ b ∈ begun.head?, Byte.isBlank b = false := by
      cases begun with
      | nil => simp
      | cons b others => simpa using Byte.solidFolded (List.cons.inj named).1 rfl
    obtain rfl := (LineFront.same begunSolid solid (parts.symm.trans ends)).2
    have letters : Bytes.fold [first] ++ rest = 0x68 :: protocolRest := named
    exact congrArg LineState.protocol (List.cons.inj letters).2
  | majorFirst start => exact (past start (List.append_nil _).symm).elim
  | major start _ _ parts => exact (past start parts).elim
  | minorFirst start _ parts => exact (past start parts).elim
  | minor start _ _ _ parts => exact (past start parts).elim
  | lineEnd start _ _ parts => exact (past start parts).elim

section FirstLetter
variable {front : LineFront} {first second : UInt8}

def misled (d : Draft) : Draft := { d with line := .protocol (ascii "tp/") }

theorem readLapse (waits : LineWaits d (front.text ++ [first])) (ofH : Byte.lower first = 0x68)
    (ofT : Byte.lower second = 0x74) :
    d.readRequestLine (front.text ++ [first] ++ [second]) = (d.misled.lifted, .more) ∧
      ∀ third tail, Byte.lower third ≠ 0x74 →
        d.readRequestLine (front.text ++ [first] ++ second :: third :: tail) = (d.misled, .failed .invalidVersion) := by
  have cursor := waits.inLine.1
  have state := waits.known.atFirst ofH rfl
  have next (held : Bytes) (q : Nat) : lineByte held d q second = .next d.misled := by
    simp [lineByte, state, protocolByte, protocolRest, ascii, ofT, misled]
  constructor
  · rw [readFrom cursor, scanNext (next _ _), scan, ← cursor]
    rfl
  · intro third tail other
    have refused (held : Bytes) (q : Nat) : lineByte held d.misled q third = .refuse d.misled .invalidVersion := by
      simp [lineByte, misled, protocolByte, ascii, other]
    rw [readFrom cursor, scanNext (next _ _), scanRefuse (refused _ _)]

theorem foundIff (waits : LineWaits e (front.text ++ [first] ++ [second])) (ofH : Byte.lower first = 0x68)
    (state : e.line = .protocol (ascii "tp/")) (held : Bytes) :
    (e.readRequestLine (front.text ++ [first] ++ [second] ++ held)).2 = .found () ↔
      Skips (front.text ++ [first]) (front.text ++ [first] ++ held) := by
  constructor
  · intro found
    have fresh := (waits.whole held).outcome.trans found
    obtain ⟨line, supported, more, whole⟩ := foundLine fresh
    have parts : front.text ++ first :: second :: held = line.toLineFront.text ++ (line.versionText ++ more) := by
      rw [← line.textParts, whole]
      simp
    obtain ⟨same, version⟩ := LineFront.same (by simpa using Byte.solidFolded ofH rfl) (line.versionSolid more) parts
    obtain ⟨h, t, letters, spelled, _⟩ := line.versionLetters
    rw [spelled, List.cons_append, List.cons_append, List.cons.injEq, List.cons.injEq] at version
    obtain ⟨rfl, rfl, rfl⟩ := version
    exact ⟨line, first, second, _, supported, spelled, by rw [same],
      (List.prefix_append_right_inj _).mpr (List.prefix_append _ _)⟩
  · intro skips
    obtain ⟨line, _, third, fourth, fifth, supported, _, named, _, inside⟩ := skips.letters
    rw [List.prefix_append_right_inj] at inside
    obtain ⟨more, rfl⟩ := inside
    obtain ⟨major, majorSmall⟩ := Version.digitsIff.mp supported.1
    obtain ⟨minor, minorSmall⟩ := Version.digitsIff.mp supported.2
    have whole : [third, fourth, fifth] ++ line.numbers ++ more =
        [third, fourth, fifth] ++ (line.major ++ Byte.dot :: (line.minor ++ Byte.cr :: Byte.lf :: more)) := by
      simp [LineText.numbers]
    rw [readFrom waits.inLine.1, whole, scanLetters (List.cons_ne_nil _ _) (by rw [state, named]),
      scanVersion major majorSmall minor minorSmall rfl]

theorem foundMisled (waits : LineWaits d (front.text ++ [first])) (ofH : Byte.lower first = 0x68) (held : Bytes)
    (later : List Bytes) :
    .found () ∈ outcomes d.misled (front.text ++ [first] ++ held) later ↔
      ∃ earlier, earlier ≠ [] ∧ earlier <+: later ∧
        Skips (front.text ++ [first]) (front.text ++ [first] ++ held ++ earlier.flatten) := by
  have ofT : Byte.lower 0x74 = 0x74 := rfl
  have alone := (readLapse waits ofH ofT).1
  have further : LineWaits d.misled.lifted (front.text ++ [first] ++ [0x74]) := .more waits alone
  have ahead : Ahead (front.text ++ [first]).length d.misled :=
    ⟨.inl (.ofAll rfl), Nat.le_of_eq waits.inLine.1.symm⟩
  have past : front.text ++ [first] ++ [0x74] = front.text ++ first :: 0x74 :: [] := by simp
  rw [← outcomesLifted ahead 0x74, List.append_cons (front.text ++ [first]),
    further.foundLater past (Byte.solidFolded ofH rfl) (List.prefix_append _ _)]
  simp only [List.append_assoc _ held, foundIff further ofH rfl]

theorem lapsedMisled {run tail : Bytes} {fault : Fault} (waits : LineWaits d seen) (lapsed : Lapsed e seen run)
    (refuses : Refuses e (seen ++ run) c) (read : d.readRequestLine (seen ++ (run ++ c :: tail)) = (e, .failed fault)) :
    ∃ (front : LineFront) (first : UInt8), Byte.lower first = 0x68 ∧ seen = front.text ++ [first] ∧ e = d.misled := by
  obtain ⟨state, front, first, second, ofH, ofT, rfl, rfl⟩ := lapsed
  have other : Byte.lower c ≠ 0x74 := by
    intro same
    obtain ⟨_, refused⟩ := refuses []
    simp [lineByte, state, protocolByte, ascii, same] at refused
  have told := (readLapse waits ofH ofT).2 c tail other
  exact ⟨front, first, ofH, rfl, (congrArg Prod.fst (read.symm.trans told))⟩

theorem skipsMisled {more : Bytes} {fault : Fault} (waits : LineWaits d seen) (skips : Skips seen (seen ++ (bytes ++ more)))
    (read : d.readRequestLine (seen ++ bytes) = (e, .failed fault)) :
    ∃ (front : LineFront) (first : UInt8), Byte.lower first = 0x68 ∧ seen = front.text ++ [first] ∧ e = d.misled := by
  obtain ⟨line, first, third, fourth, _, _, ⟨ofH, ofT, ofP⟩, _, rfl, inside⟩ := skips.letters
  rw [List.prefix_append_right_inj] at inside
  refine ⟨line.toLineFront, first, ofH, rfl, ?_⟩
  -- The call that is refused has seen the letters behind the one that is left out.
  match bytes with
  | [] =>
    rw [List.append_nil, waits.still] at read
    cases read
  | [b] =>
    obtain rfl := (List.cons_prefix_cons.mp inside).1
    rw [(readLapse waits ofH ofT).1] at read
    cases read
  | b :: b' :: tail =>
    obtain ⟨same, inside⟩ := List.cons_prefix_cons.mp inside
    have next := (List.cons_prefix_cons.mp inside).1
    subst same next
    have told := (readLapse waits ofH ofT).2 _ tail (by rw [ofP]; decide)
    exact congrArg Prod.fst (read.symm.trans told)

end FirstLetter

theorem foundRefused {before : List Bytes} {fault : Fault} (later : List Bytes)
    (unrefused : ∀ fault, .failed fault ∉ outcomes {} [] before)
    (refused : (reached {} [] before).readRequestLine (before.flatten ++ bytes) = (e, .failed fault)) :
    .found () ∈ outcomes e (before.flatten ++ bytes) later ↔
      ∃ earlier, earlier ≠ [] ∧ earlier <+: later ∧
        Skips before.flatten (before.flatten ++ bytes ++ earlier.flatten) := by
  rcases reachedWaits (.inl .fresh) unrefused with waits | finished
  · rw [List.nil_append] at waits
    generalize reached {} [] before = d, before.flatten = seen at waits refused ⊢
    have lifted (misled : ∃ (front : LineFront) (first : UInt8), Byte.lower first = 0x68 ∧ seen = front.text ++ [first] ∧
        e = d.misled) : .found () ∈ outcomes e (seen ++ bytes) later ↔
          ∃ earlier, earlier ≠ [] ∧ earlier <+: later ∧ Skips seen (seen ++ bytes ++ earlier.flatten) := by
      obtain ⟨front, first, ofH, rfl, rfl⟩ := misled
      exact foundMisled waits ofH bytes later
    obtain ⟨run, c, tail, rfl, cursor, known, refuses⟩ := waits.refused refused
    rcases rewound known cursor refuses tail with barred | lapsed
    · refine ⟨fun taken => absurd taken (barred.neverFound later), fun ⟨earlier, filled, front, skips⟩ => ?_⟩
      rw [List.append_assoc] at skips
      exact (lifted (skipsMisled waits skips refused)).mpr ⟨earlier, filled, front, by rwa [List.append_assoc]⟩
    · exact lifted (lapsedMisled waits lapsed refuses refused)
  · exact absurd (congrArg Prod.snd refused) ((readFinished finished _).2 fault)

/-- Once a call was refused, a later one finds a request line exactly where the line came without
the second letter of its protocol name, and the calls before had seen it up to the first
letter. No text that is taken like that begins with a request line. -/
theorem refusalLifted (before : List Bytes) (bytes : Bytes) (later : List Bytes) {e : Draft} {fault : Fault}
    (unrefused : ∀ fault, .failed fault ∉ outcomes {} [] before)
    (refused : (reached {} [] before).readRequestLine (before.flatten ++ bytes) = (e, .failed fault)) :
    (.found () ∈ outcomes e (before.flatten ++ bytes) later ↔
      ∃ earlier, earlier ≠ [] ∧ earlier <+: later ∧
        Skips before.flatten (before.flatten ++ bytes ++ earlier.flatten)) ∧
    (.found () ∈ outcomes e (before.flatten ++ bytes) later →
      ¬ ∃ line : LineText, line.Supported ∧ line.text <+: before.flatten ++ bytes ++ later.flatten) := by
  have found := foundRefused later unrefused refused
  refine ⟨found, fun taken => ?_⟩
  obtain ⟨earlier, _, ⟨rest, rfl⟩, skips⟩ := found.mp taken
  refine (skips.mono ?_).noLine
  rw [List.flatten_append, ← List.append_assoc]
  exact List.prefix_append _ _

theorem refusalLiftedByOmission :
    let seen := ascii "GET / H"
    let held := seen ++ ascii "TP/1.1\r\n"
    let cut := (reached {} [] [seen]).readRequestLine held
    let whole := ({} : Draft).readRequestLine held
    cut.2 = .failed .invalidVersion ∧ outcomes cut.1 held [[]] = [.found ()] ∧ Skips seen held ∧
      whole.2 = .failed .invalidVersion ∧ ∀ later, .found () ∉ outcomes whole.1 held later := by
  intro seen held cut whole
  have cutRefused : cut.2 = .failed .invalidVersion := by decide +kernel
  have wholeRefused : whole.2 = .failed .invalidVersion := by decide +kernel
  have taken : outcomes cut.1 held [[]] = [.found ()] := by decide +kernel
  have waited : outcomes {} [] [seen] = [.more] := by decide +kernel
  have flat : [seen].flatten = seen := List.append_nil seen
  refine ⟨cutRefused, taken, ?_, wholeRefused, fun later found => ?_⟩
  · have lifted := refusalLifted [seen] (ascii "TP/1.1\r\n") [[]] (e := cut.1) (by simp [waited])
      (by rw [flat]; exact Prod.ext rfl cutRefused)
    rw [flat] at lifted
    obtain ⟨earlier, _, ⟨rest, same⟩, skips⟩ := lifted.1.mp (by rw [taken]; exact List.mem_singleton_self _)
    have nothing : earlier.flatten ++ rest.flatten = [] := by
      rw [← List.flatten_append, same]
      rfl
    rwa [(List.append_eq_nil_iff.mp nothing).1, List.append_nil] at skips
  · have refused := refusalLifted [] held later (by simp [outcomes]) (Prod.ext rfl wholeRefused)
    obtain ⟨_, _, _, line, first, _, _, _, _, ends, _⟩ := refused.1.mp found
    simp at ends

/- A line that is no request line, refused and then taken when the call is repeated. -/
theorem refusedLineTaken :
    outcomes {} [] [ascii "GET / H", ascii "TP/1.1\r\n", []] = [.more, .failed .invalidVersion, .found ()] ∧
      ¬ ∃ line : LineText, line.Supported ∧ line.text <+: ascii "GET / HTP/1.1\r\n" := by
  refine ⟨by decide +kernel, ?_⟩
  rintro ⟨line, supported, rest, whole⟩
  have refused : (({} : Draft).readRequestLine (ascii "GET / HTP/1.1\r\n")).2 = .failed .invalidVersion := by
    decide +kernel
  obtain ⟨_, _, read⟩ := line.readSupported supported rest (by rw [whole]; decide +kernel)
  rw [← whole, read] at refused
  cases refused

end Draft
end StaticHttp
