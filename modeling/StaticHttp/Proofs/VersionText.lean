import StaticHttp.Proofs.LineGrammar
/-! The version that is noted of a text, be it a line or not. The two numbers are noted
digit by digit, so a text that ends or is refused between them leaves the first number
alone, with a zero in the place of the second. -/
namespace StaticHttp

namespace Version
variable {digits rest : Bytes} {b : UInt8} {n : Nat}

theorem oneStarts (isOne : IsOne digits) : ∃ b others, digits = b :: others ∧ (b = zero ∨ b = one) := by
  obtain ⟨zeros, rfl⟩ := isOne
  cases zeros with
  | zero => exact ⟨one, [], rfl, .inr rfl⟩
  | succ zeros => exact ⟨zero, _, rfl, .inl rfl⟩

theorem oneBehind (isOne : IsOne digits) {zeros : Nat} (front : digits <+: List.replicate zeros zero ++ rest) :
    ∃ others, IsOne others ∧ others <+: rest := by
  obtain ⟨count, rfl⟩ := isOne
  induction zeros generalizing count with
  | zero => exact ⟨_, ⟨count, rfl⟩, front⟩
  | succ zeros ih =>
    cases count with
    | zero =>
      have same := (List.cons_prefix_cons.mp front).1
      contradiction
    | succ count => exact ih count (List.cons_prefix_cons.mp front).2

theorem extendZero (extended : extend 0 b = .ok n) : b = zero ∧ n = 0 ∨ b = one ∧ n = 1 := by
  unfold extend at extended
  split at extended
  · rename_i digit
    simp only [Nat.zero_mul, Nat.zero_add] at extended
    split at extended
    · contradiction
    · rename_i small
      cases extended
      rcases smallDigit digit (Nat.not_lt.mp small) with rfl | rfl
      · exact .inl ⟨rfl, rfl⟩
      · exact .inr ⟨rfl, rfl⟩
  · contradiction

theorem extendOne (b : UInt8) (n : Nat) : extend 1 b ≠ .ok n := by
  unfold extend
  split
  · simp only
    rw [if_pos (by omega)]
    simp
  · simp

theorem numeralOne (numeral : Decimal.Numeral digits) (number : Decimal.number digits = 1) : IsOne digits := by
  rcases digitsIff.mpr ⟨numeral, Nat.le_of_eq number⟩ with ⟨zeros, rfl⟩ | isOne
  · rw [(zerosNumber zeros).2] at number
    contradiction
  · exact isOne

theorem numeralZero (numeral : Decimal.Numeral digits) (number : Decimal.number digits = 0) :
    ∃ zeros, digits = List.replicate zeros zero := by
  rcases digitsIff.mpr ⟨numeral, by omega⟩ with ⟨zeros, rfl⟩ | isOne
  · exact ⟨_, rfl⟩
  · rw [(oneNumber isOne).2] at number
    contradiction

theorem numeralUnbroken (numeral : Decimal.Numeral digits) : Byte.lf ∉ digits := fun inside =>
  absurd (numeral.2 _ inside) (by decide)

theorem oneUnbroken (isOne : IsOne digits) : Byte.lf ∉ digits := numeralUnbroken (oneNumber isOne).1

end Version

namespace LineStart

theorem unbroken (start : LineStart) : Byte.lf ∉ start.text := by
  have blank {bytes : Bytes} (each : ∀ b ∈ bytes, Byte.isBlank b = true) : Byte.lf ∉ bytes := fun inside =>
    absurd (each _ inside) (by decide)
  have token : Byte.lf ∉ start.method.token := by
    cases start.method <;> decide
  have target : Byte.lf ∉ start.target := fun inside => absurd (start.targetUnbroken _ inside).2 (by decide)
  have protocol : Byte.lf ∉ start.protocol := by
    intro inside
    have folded := List.mem_map_of_mem (f := Byte.lower) inside
    rw [show start.protocol.map Byte.lower = _ from (Bytes.sameLettersIff _ _).mp start.protocolNamed] at folded
    revert folded
    decide
  have marks : Byte.lf ≠ Byte.space ∧ Byte.lf ≠ Byte.slash := by decide
  simp [text, LineFront.text, LineFront.opening, LineFront.whole, token, target, protocol, blank start.gapBlank,
    blank start.spaceBlank, marks.1, marks.2]

end LineStart

theorem LineText.inFront {line : LineText} {front rest : Bytes} (inside : line.text <+: front ++ rest)
    (through : rest = [] ∨ Byte.lf ∈ front) : line.text <+: front := by
  rcases through with rfl | ended
  · rwa [List.append_nil] at inside
  · have parts : line.text = line.toLineStart.text ++ (line.major ++ Byte.dot :: (line.minor ++ [Byte.cr])) ++ [Byte.lf] := by
      rw [← List.append_nil line.text, line.startText []]
      simp
    have marks : Byte.lf ≠ Byte.dot ∧ Byte.lf ≠ Byte.cr := by decide
    have oneLine : Byte.lf ∉ line.toLineStart.text ++ (line.major ++ Byte.dot :: (line.minor ++ [Byte.cr])) := by
      simp [line.toLineStart.unbroken, Version.numeralUnbroken line.majorNumeral, Version.numeralUnbroken line.minorNumeral,
        marks.1, marks.2]
    rcases List.prefix_or_prefix_of_prefix inside (List.prefix_append front rest) with short | long
    · exact short
    · rw [parts] at long ⊢
      rcases List.prefix_concat_iff.mp long with rfl | early
      · exact List.prefix_refl _
      · exact absurd (early.subset ended) oneLine

def ComesToOneZero (text : Bytes) : Prop :=
  ∃ (start : LineStart) (major : Bytes), Version.IsOne major ∧ start.text ++ major <+: text ∧
    ∀ minor, Version.IsOne minor → ¬ start.text ++ (major ++ Byte.dot :: minor) <+: text

theorem firstLine {line text rest : Bytes} (oneLine : Byte.lf ∉ line) (ended : Byte.lf ∈ text) :
    line <+: text ++ rest ↔ line <+: text := by
  constructor
  · intro front
    rcases List.prefix_or_prefix_of_prefix front (List.prefix_append text rest) with inside | longer
    · exact inside
    · exact absurd (longer.subset ended) oneLine
  · exact fun front => front.trans (List.prefix_append _ _)

theorem ComesToOneZero.ofRest (start : LineStart) {major rest : Bytes} (isOne : Version.IsOne major)
    (none : ∀ minor, Version.IsOne minor → ¬ Byte.dot :: minor <+: rest) :
    ComesToOneZero (start.text ++ (major ++ rest)) := by
  refine ⟨start, major, isOne, ?_, fun minor second further => none minor second ?_⟩
  · rw [← List.append_assoc]
    exact List.prefix_append _ _
  · rwa [List.prefix_append_right_inj, List.prefix_append_right_inj] at further

theorem oneZeroFront {text : Bytes} (ended : Byte.lf ∈ text) (rest : Bytes) :
    ComesToOneZero (text ++ rest) ↔ ComesToOneZero text := by
  have begun (start : LineStart) {major : Bytes} (isOne : Version.IsOne major) :
      start.text ++ major <+: text ++ rest ↔ start.text ++ major <+: text :=
    firstLine (by simp [start.unbroken, Version.oneUnbroken isOne]) ended
  have further (start : LineStart) {major minor : Bytes} (isOne : Version.IsOne major) (second : Version.IsOne minor) :
      start.text ++ (major ++ Byte.dot :: minor) <+: text ++ rest ↔ start.text ++ (major ++ Byte.dot :: minor) <+: text := by
    have dot : Byte.lf ≠ Byte.dot := by decide
    exact firstLine (by simp [start.unbroken, Version.oneUnbroken isOne, Version.oneUnbroken second, dot]) ended
  constructor
  · rintro ⟨start, major, isOne, front, none⟩
    exact ⟨start, major, isOne, (begun start isOne).mp front, fun minor second inside =>
      none minor second ((further start isOne second).mpr inside)⟩
  · rintro ⟨start, major, isOne, front, none⟩
    exact ⟨start, major, isOne, (begun start isOne).mpr front, fun minor second inside =>
      none minor second ((further start isOne second).mp inside)⟩

namespace Draft
open Version (IsOne)
variable {buffer text : Bytes} {d : Draft}

def versionOf (text : Bytes) : Version := (({} : Draft).readRequestLine text).1.version

theorem haltVersion {f : Draft} {after : Bytes} {ended : Draft × Outcome Unit} (unfinished : f.line ≠ .finished)
    (halt : Halt lineByte f text after ended) : ended.1.version = f.version := by
  cases halt with
  | more => rfl
  | found _ stopped =>
    obtain ⟨_, _, rfl⟩ := lineStop unfinished stopped
    rfl
  | failed _ refused => rw [(lineRefuse refused).1]

theorem LineRead.oneZero {after : Bytes} {ended : Draft × Outcome Unit} (read : LineRead d.line d.mark d.version text)
    (halt : Halt lineByte d text after ended) (told : d.version = .http10) : ComesToOneZero (text ++ after) := by
  cases d
  simp only at read told
  cases read with
  | start | method | beforeTarget | target | beforeVersion | protocol | majorFirst => contradiction
  | major start numeral small parts =>
    rw [parts, List.append_assoc]
    refine .ofRest start (Version.numeralOne numeral (congrArg Version.major told)) fun minor second further => ?_
    obtain ⟨others, rfl⟩ := further
    exact halt.noNext rfl
  | minorFirst start digits parts =>
    rw [parts, List.append_assoc, List.append_assoc, List.singleton_append]
    have isOne := Version.numeralOne (Version.digitsIff.mp digits).1 (congrArg Version.major told)
    refine .ofRest start isOne fun minor second further => ?_
    obtain ⟨b, others, rfl, known⟩ := Version.oneStarts second
    obtain ⟨others, rfl⟩ := (List.cons_prefix_cons.mp further).2
    rcases known with rfl | rfl
    · exact halt.noNext rfl
    · exact halt.noNext rfl
  | minor start digits numeral small parts =>
    rw [parts, List.append_assoc, List.append_assoc, List.cons_append]
    have isOne := Version.numeralOne (Version.digitsIff.mp digits).1 (congrArg Version.major told)
    -- A one that began among the zeros would go on at the byte at which the reader halts.
    obtain ⟨zeros, rfl⟩ := Version.numeralZero numeral (congrArg Version.minor told)
    refine .ofRest start isOne fun minor second further => ?_
    obtain ⟨rest, behind, inside⟩ := Version.oneBehind second (List.cons_prefix_cons.mp further).2
    obtain ⟨b, others, rfl, known⟩ := Version.oneStarts behind
    obtain ⟨others, rfl⟩ := inside
    rw [told] at halt
    rcases known with rfl | rfl
    · exact halt.noNext rfl
    · exact halt.noNext rfl
  | lineEnd start digits minorDigits parts =>
    rw [parts, List.append_assoc, List.append_assoc, List.cons_append, List.append_assoc, List.singleton_append]
    have isOne := Version.numeralOne (Version.digitsIff.mp digits).1 (congrArg Version.major told)
    obtain ⟨zeros, rfl⟩ := Version.numeralZero (Version.digitsIff.mp minorDigits).1 (congrArg Version.minor told)
    refine .ofRest start isOne fun minor second further => ?_
    obtain ⟨rest, behind, inside⟩ := Version.oneBehind second (List.cons_prefix_cons.mp further).2
    obtain ⟨b, others, rfl, known⟩ := Version.oneStarts behind
    have cr := (List.cons_prefix_cons.mp inside).1
    rcases known with rfl | rfl
    · contradiction
    · contradiction

theorem lineEndStill {buffer : Bytes} (state : d.line = .lineEnd) (position : Nat) (rest : Bytes) :
    (scan (lineByte buffer) d position rest).1.version = d.version := by
  cases rest with
  | nil => rfl
  | cons b rest =>
    simp only [scan, lineByte, state]
    by_cases lf : b = Byte.lf
    · rw [if_pos lf]
    · rw [if_neg lf]

theorem minorStill (state : d.line = .minorFirst ∨ d.line = .minor) (told : d.version = .http10) (position : Nat)
    {rest : Bytes} (none : ∀ minor, IsOne minor → ¬ minor <+: rest) :
    (scan (lineByte buffer) d position rest).1.version = .http10 := by
  -- The digits so far are zeros, so the next byte is judged as the first one would be.
  induction rest generalizing d position with
  | nil => exact told
  | cons b rest ih =>
    cases extended : Version.extend 0 b with
    | ok n =>
      have further : lineByte buffer d position b = .next { d with version := ⟨d.version.major, n⟩, line := .minor } := by
        rcases state with first | later
        · simp only [lineByte, first, minorByte, extended]
        · have minor : d.version.minor = 0 := by rw [told]; rfl
          simp only [lineByte, later, minor, if_neg (extendNotMark extended).2, minorByte, extended]
      rw [scanNext further]
      rcases Version.extendZero extended with ⟨rfl, rfl⟩ | ⟨rfl, rfl⟩
      · refine ih (.inr rfl) (by rw [told]; rfl) _ fun minor second inside => ?_
        obtain ⟨zeros, rfl⟩ := second
        exact none _ ⟨zeros + 1, rfl⟩ (List.cons_prefix_cons.mpr ⟨rfl, inside⟩)
      · exact absurd (List.prefix_append [Version.one] rest) (none _ ⟨0, rfl⟩)
    | error fault =>
      rcases state with first | later
      · simp only [scan, lineByte, first, minorByte, extended]
        exact told
      · by_cases cr : b = Byte.cr
        · have ended : lineByte buffer d position b = .next { d with line := .lineEnd } := by
            simp only [lineByte, later, if_pos cr]
          rw [scanNext ended, lineEndStill rfl]
          exact told
        · have minor : d.version.minor = 0 := by rw [told]; rfl
          simp only [scan, lineByte, later, if_neg cr, minorByte, minor, extended]
          exact told

theorem majorStill (state : d.line = .major) (told : d.version = .http10) (position : Nat) {rest : Bytes}
    (none : ∀ minor, IsOne minor → ¬ Byte.dot :: minor <+: rest) :
    (scan (lineByte buffer) d position rest).1.version = .http10 := by
  cases rest with
  | nil => exact told
  | cons b rest =>
    by_cases dot : b = Byte.dot
    · have further : lineByte buffer d position b = .next { d with line := .minorFirst } := by
        simp only [lineByte, state, if_pos dot]
      rw [scanNext further]
      exact minorStill (d := { d with line := .minorFirst }) (.inl rfl) told _ fun minor second inside =>
        none minor second (List.cons_prefix_cons.mpr ⟨dot.symm, inside⟩)
    · have major : d.version.major = 1 := by rw [told]; rfl
      cases extended : Version.extend 1 b with
      | ok n => exact absurd extended (Version.extendOne b n)
      | error fault =>
        simp only [scan, lineByte, state, if_neg dot, majorByte, major, extended]
        exact told

theorem versionOneZero (word : text.length < Word.size) : versionOf text = .http10 ↔ ComesToOneZero text := by
  constructor
  · intro told
    obtain ⟨f, front, after, parts, ⟨inLine, read⟩, halt⟩ :=
      resumeHalts grammarSteady (d := {}) (Nat.zero_le text.length) freshRead
    rw [parts]
    exact read.oneZero halt ((haltVersion inLine.unfinished halt).symm.trans told)
  · rintro ⟨start, major, isOne, ⟨rest, parts⟩, none⟩
    have whole : text = start.text ++ (major ++ rest) := by rw [← parts, List.append_assoc]
    obtain ⟨numeral, number⟩ := Version.oneNumber isOne
    rw [whole] at word
    obtain ⟨_, _, read⟩ := start.read (major ++ rest) word
    rw [versionOf, whole, read, scanMajor numeral (Nat.le_of_eq number) rfl, number]
    refine majorStill rfl rfl _ fun minor second inside => none minor second ?_
    rw [whole, List.prefix_append_right_inj, List.prefix_append_right_inj]
    exact inside

end Draft
end StaticHttp
