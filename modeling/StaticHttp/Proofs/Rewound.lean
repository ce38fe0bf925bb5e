import StaticHttp.Proofs.Refusal
import StaticHttp.Proofs.VersionText
/-! What a refused request line comes to when its bytes are read again, state by state. The
token that was refused is read from its middle, so it lacks its beginning, or a byte comes
that no later part of a line has. Only behind the second letter of the protocol name may the
next byte be the one that is waited for. -/
namespace StaticHttp

namespace Byte

theorem letterPlain {b : UInt8} (letter : isLetter b = true) : isBlank b = false ∧ isBreak b = false := by
  constructor
  · cases blank : isBlank b with
    | false => rfl
    | true => exact absurd (blankPlain blank).1 (by simp [letter])
  · cases ended : isBreak b with
    | false => rfl
    | true =>
      simp only [isBreak, Bool.or_eq_true, beq_iff_eq] at ended
      rcases ended with rfl | rfl <;> contradiction

end Byte

namespace Target

theorem splitNothing (buffer : Bytes) {start stop : Nat} (nothing : stop ≤ start) :
    split buffer (.range start stop) = .error .invalidUrl := by
  unfold split
  cases sliced : (Span.range start stop).slice? buffer with
  | none => rfl
  | some bytes =>
    have total := Span.sliceLength sliced
    have reach := (Span.range start stop).stopLeReach
    simp only [Span.reach, Span.range] at total reach
    obtain rfl : bytes = [] := List.length_eq_zero_iff.mp (by omega)
    rfl

end Target

namespace Method

theorem tokenLetter (m : Method) : ∀ b ∈ m.token, Byte.isLetter b = true := by
  have each : m.token.all Byte.isLetter = true := by
    cases m <;> rfl
  exact List.all_eq_true.mp each

end Method

namespace Version

theorem extendZeros : extend 0 zero = .ok 0 := rfl

theorem extendOneFault (b : UInt8) : ∃ fault, extend 1 b = .error fault := by
  cases extended : extend 1 b with
  | ok n => exact absurd extended (extendOne b n)
  | error fault => exact ⟨fault, rfl⟩

theorem extendNoDigit {n : Nat} {b : UInt8} (other : Byte.isDigit b = false) : extend n b = .error .invalidVersion := by
  simp [extend, other]

end Version

namespace LineFront

theorem lastBlank (front : LineFront) {before rest : Bytes} (parts : front.text = before ++ rest) (some : rest ≠ []) :
    Byte.isBlank (rest.getLast some) = true := by
  have last : (before ++ rest).getLast (List.append_ne_nil_of_right_ne_nil _ some) =
      front.space.getLast front.spaceSome := by
    have whole : before ++ rest = front.opening ++ front.whole ++ front.space := by
      rw [← parts, text, List.append_assoc]
    simp only [whole, List.getLast_append_right front.spaceSome]
  rw [List.getLast_append_right some] at last
  rw [last]
  exact front.spaceBlank _ (List.getLast_mem front.spaceSome)

theorem cut (front : LineFront) {seen run behind : Bytes} (parts : seen ++ run = front.text ++ behind) :
    (∃ b ∈ run, Byte.isBlank b = true) ∨ ∃ begun, seen = front.text ++ begun ∧ behind = begun ++ run := by
  rcases List.append_eq_append_iff.mp parts with ⟨rest, text, rfl⟩ | ⟨begun, seen, behind⟩
  · by_cases some : rest = []
    · exact .inr ⟨[], by simp [text, some], by simp [some]⟩
    · exact .inl ⟨_, List.mem_append_left _ (List.getLast_mem some), front.lastBlank text some⟩
  · exact .inr ⟨begun, seen, behind⟩

end LineFront

namespace Draft
variable {d : Draft} {seen run : Bytes} {b c : UInt8}

theorem slashless {letters : Bytes} (state : d.line = .target) (mark : d.mark = seen.length) (other : b ≠ Byte.slash)
    (blank : Byte.isBlank c = true) : Refuses d (seen ++ b :: letters) c := by
  intro rest
  simp only [lineByte, state, targetByte, blank, if_true, mark]
  cases parted : Target.split (seen ++ b :: letters ++ c :: rest) (.range seen.length (seen ++ b :: letters).length) with
  | ok target =>
    obtain ⟨behind, same⟩ := wholeRead (List.cons_ne_nil b letters) parted
    exact absurd (List.cons.inj same).1 other
  | error fault => exact ⟨fault, rfl⟩

theorem barredToken {letters : Bytes} (cursor : d.cursor = seen.length) (state : d.line = .beforeTarget)
    (each : ∀ c ∈ b :: letters, Byte.isLetter c = true) (tail : Bytes) :
    Barred d (seen ++ (b :: letters ++ Byte.space :: tail)) := by
  have letter := each b (by simp)
  have plain (c : UInt8) (inside : c ∈ b :: letters) := Byte.letterPlain (each c inside)
  have other : b ≠ Byte.slash := by
    rintro rfl
    contradiction
  have first (held : Bytes) : lineByte held d seen.length b = .next { d with mark := seen.length, line := .target } := by
    simp [lineByte, state, plain b (by simp)]
  have stays (held : Bytes) (c : UInt8) (inside : c ∈ b :: letters) (q : Nat) :
      lineByte held { d with mark := seen.length, line := .target } q c =
        .next { d with mark := seen.length, line := .target } := by
    simp [lineByte, targetByte, plain c inside]
  have none : Refuses { d with mark := seen.length, line := .target } (seen ++ b :: letters) Byte.space :=
    slashless rfl rfl other rfl
  have barred : Barred { d with mark := seen.length, line := .target } (seen ++ (b :: letters ++ Byte.space :: tail)) :=
    barredStill cursor (fun held c inside q _ _ => stays held c inside q) none rfl
  refine .step fun rest => ?_
  obtain ⟨fault, judged⟩ := none (tail ++ rest)
  refine ⟨_, fault, ?_, barred⟩
  have ends : seen.length + 1 + letters.length = (seen ++ b :: letters).length := by
    simp only [List.length_append, List.length_cons]
    omega
  rw [List.append_assoc, List.append_assoc, List.cons_append, List.cons_append, readFrom cursor, scanNext (first _),
    scanRun (fun c inside q _ _ => stays _ c (List.mem_cons_of_mem _ inside) q), ends]
  rw [List.append_assoc, List.cons_append] at judged
  exact scanRefuse judged _

theorem barredMethod (cursor : d.cursor = seen.length) (refused : Refuses d (seen ++ run) c) (state : d.line = .method)
    (mark : d.mark = 0) (letters : ∀ b ∈ seen ++ run, Byte.isLetter b = true)
    (short : (seen ++ run).length ≤ Method.longest) (tail : Bytes) : Barred d (seen ++ (run ++ c :: tail)) := by
  refine barredStill cursor (fun held b inside q lower upper => ?_) refused rfl
  have room : Byte.isLetter b = true ∧ d.mark ≤ q ∧ q - d.mark < Method.longest := by
    rw [List.length_append] at short
    exact ⟨letters b (List.mem_append_right _ inside), by omega, by omega⟩
  simp only [lineByte, state, methodByte, if_pos room]

theorem barredBeforeTarget {m : Method} {gap : Bytes} (cursor : d.cursor = seen.length)
    (refused : Refuses d (seen ++ run) c) (state : d.line = .beforeTarget)
    (blank : ∀ b ∈ gap, Byte.isBlank b = true) (parts : seen ++ run = m.token ++ Byte.space :: gap) (tail : Bytes) :
    Barred d (seen ++ (run ++ c :: tail)) := by
  have still (blanks : ∀ b ∈ run, Byte.isBlank b = true) : Barred d (seen ++ (run ++ c :: tail)) :=
    barredStill cursor (fun held b inside q _ _ => by simp only [lineByte, state, blanks b inside, if_true]) refused rfl
  have spaced : ∀ b ∈ Byte.space :: gap, Byte.isBlank b = true := List.forall_mem_cons.mpr ⟨rfl, blank⟩
  rcases List.append_eq_append_iff.mp parts with ⟨front, token, rest⟩ | ⟨begun, _, rest⟩
  · cases front with
    | nil => exact still (by simpa [rest] using spaced)
    | cons b letters =>
      have each : ∀ c ∈ b :: letters, Byte.isLetter c = true := fun c inside =>
        m.tokenLetter c (by simp [token, inside])
      have whole : run ++ c :: tail = b :: letters ++ Byte.space :: (gap ++ c :: tail) := by simp [rest]
      rw [whole]
      exact barredToken cursor state each _
  · exact still fun b inside => spaced b (by rw [rest]; exact List.mem_append_right _ inside)

theorem barredTarget {opening whole : Bytes} (cursor : d.cursor = seen.length) (refused : Refuses d (seen ++ run) c)
    (state : d.line = .target) (mark : d.mark = opening.length) (solid : ∀ b ∈ whole, Byte.isBlank b = false)
    (unbroken : ∀ b ∈ opening ++ whole, Byte.isBreak b = false) (parts : seen ++ run = opening ++ whole) (tail : Bytes) :
    Barred d (seen ++ (run ++ c :: tail)) := by
  have stays {bytes : Bytes} (inside : ∀ b ∈ bytes, b ∈ run) (solid : ∀ b ∈ bytes, Byte.isBlank b = false) :
      ∀ held, ∀ b ∈ bytes, ∀ q, seen.length ≤ q → q < seen.length + bytes.length → lineByte held d q b = .next d := by
    intro held b here q _ _
    have further := unbroken b (by rw [← parts]; exact List.mem_append_right _ (inside b here))
    simp [lineByte, state, targetByte, solid b here, further]
  cases found : run.find? Byte.isBlank with
  | none =>
    have none : ∀ b ∈ run, Byte.isBlank b = false := by simpa using List.find?_eq_none.mp found
    exact barredStill cursor (stays (fun _ inside => inside) none) refused rfl
  | some b =>
    -- A blank stands before the target, and nothing has been read of it by then.
    obtain ⟨blank, before, after, rfl, none⟩ := List.find?_eq_some_iff_append.mp found
    have short : (seen ++ before).length < opening.length := by
      rw [← List.append_assoc] at parts
      rcases List.append_eq_append_iff.mp parts with ⟨rest, front, behind⟩ | ⟨begun, _, behind⟩
      · cases rest with
        | nil => exact absurd (solid b (List.nil_append whole ▸ behind ▸ List.mem_cons_self)) (by simp [blank])
        | cons => simp [front]
      · exact absurd (solid b (by simp [behind])) (by simp [blank])
    have nothing : Refuses d (seen ++ before) b := by
      intro rest
      simp only [lineByte, state, targetByte, blank, if_true, mark, Target.splitNothing _ (Nat.le_of_lt short)]
      exact ⟨_, rfl⟩
    exact barredStill cursor (stays (fun _ => List.mem_append_left _) (by simpa using none)) nothing
      (by rw [List.append_assoc, List.cons_append])

theorem barredBeforeVersion (front : LineFront) (cursor : d.cursor = seen.length) (refused : Refuses d (seen ++ run) c)
    (state : d.line = .beforeVersion) (oneLine : Byte.lf ∉ run) (parts : front.text = seen ++ run) (tail : Bytes) :
    Barred d (seen ++ (run ++ c :: tail)) := by
  have stays {bytes : Bytes} (blank : ∀ b ∈ bytes, Byte.isBlank b = true) (held : Bytes) (b : UInt8) (inside : b ∈ bytes)
      (q : Nat) : lineByte held d q b = .next d := by
    simp only [lineByte, state, blank b inside, if_true]
  cases found : run.find? fun b => !Byte.isBlank b with
  | none =>
    have blank : ∀ b ∈ run, Byte.isBlank b = true := by simpa using List.find?_eq_none.mp found
    exact barredStill cursor (fun held b inside q _ _ => stays blank held b inside q) refused rfl
  | some b =>
    obtain ⟨solid, before, after, rfl, blanks⟩ := List.find?_eq_some_iff_append.mp found
    replace solid : Byte.isBlank b = false := by simpa using solid
    have blank : ∀ b ∈ before, Byte.isBlank b = true := by simpa using blanks
    by_cases letter : Byte.lower b = 0x68
    · -- The front ends with a blank, which no state behind this letter takes.
      have ends : front.text = seen ++ before ++ b :: after := by rw [parts, List.append_assoc]
      have last := front.lastBlank ends (List.cons_ne_nil b after)
      have ahead : ∃ b ∈ after, Byte.isBlank b = true := by
        cases after with
        | nil => simp [solid] at last
        | cons c others => exact ⟨_, List.getLast_mem _, by rwa [List.getLast_cons (List.cons_ne_nil c others)] at last⟩
      have behind : Byte.lf ∉ after := fun inside => oneLine (by simp [inside])
      have next (held : Bytes) (q : Nat) : lineByte held d q b = .next { d with line := .protocol protocolRest } := by
        simp [lineByte, state, solid, letter]
      have again : ∃ c ∈ before ++ b :: after, Byte.isBlank c = true := by
        obtain ⟨c, inside, blank⟩ := ahead
        exact ⟨c, by simp [inside], blank⟩
      have late : Late { d with line := .protocol protocolRest }.line := .ofAll rfl
      refine .step fun rest => ?_
      have whole : seen ++ (before ++ b :: after ++ c :: tail) ++ rest =
          seen ++ (before ++ b :: (after ++ (c :: tail ++ rest))) := by simp
      rw [whole, readFrom cursor, scanRun (fun b inside q _ _ => stays blank _ b inside q), scanNext (next _ _)]
      obtain ⟨f, fault, scanned, further, same⟩ := lateFence.refused late behind ahead _ (c :: tail ++ rest)
      exact ⟨f, fault, scanned, lateFence.barred further (same.trans cursor) oneLine again _⟩
    · have other : Refuses d (seen ++ before) b := fun rest => ⟨.invalidVersion, by simp [lineByte, state, solid, letter]⟩
      exact barredStill cursor (fun held b inside q _ _ => stays blank held b inside q) other
        (by rw [List.append_assoc, List.cons_append])

theorem letterTwice {early between later : Bytes} (parts : ascii "http/" = early ++ b :: (between ++ b :: later)) :
    early = [0x68] ∧ b = 0x74 ∧ between = [] ∧ later = ascii "p/" := by
  have name : ascii "http/" = [0x68, 0x74, 0x74, 0x70, 0x2F] := rfl
  rw [name] at parts
  have once {bytes front : Bytes} (distinct : bytes.Nodup) : bytes ≠ front ++ b :: (between ++ b :: later) := by
    rintro rfl
    simp [List.nodup_append] at distinct
  match early with
  | [] =>
    obtain ⟨rfl, others⟩ := List.cons.inj parts
    have again : (0x68 : UInt8) ∈ [0x74, 0x74, 0x70, 0x2F] := by rw [others]; simp
    contradiction
  | [first] =>
    obtain ⟨rfl, others⟩ := List.cons.inj parts
    obtain ⟨rfl, others⟩ := List.cons.inj others
    cases between with
    | nil => exact ⟨rfl, rfl, rfl, (List.cons.inj others).2.symm⟩
    | cons c between =>
      have again : (0x74 : UInt8) ∈ [0x70, 0x2F] := by
        rw [(List.cons.inj others).2]
        simp
      contradiction
  | first :: second :: early =>
    exact absurd (List.cons.inj (List.cons.inj parts).2).2 (once (by decide))

theorem nameLetter (inside : Byte.lower b ∈ ascii "http/") : Byte.isDigit b = false ∧ b ≠ Byte.dot ∧ b ≠ Byte.cr := by
  refine ⟨?_, ?_, ?_⟩
  · cases digit : Byte.isDigit b with
    | false => rfl
    | true =>
      have folded : Byte.lower b = b := by
        simp only [Byte.isDigit, Bool.and_eq_true, decide_eq_true_eq, UInt8.le_iff_toNat_le] at digit
        refine if_neg fun upper => ?_
        simp only [Byte.isUpper, Bool.and_eq_true, decide_eq_true_eq, UInt8.le_iff_toNat_le] at upper
        exact absurd (Nat.le_trans upper.1 digit.2) (by decide)
      have solid : (ascii "http/").all (fun c => !Byte.isDigit c) = true := rfl
      rw [folded] at inside
      simpa [digit] using List.all_eq_true.mp solid b inside
  · rintro rfl
    contradiction
  · rintro rfl
    contradiction

theorem barredNumber {digits early : Bytes} (cursor : d.cursor = seen.length) (refused : Refuses d (seen ++ run) c)
    (numeral : Decimal.Numeral digits) (small : Decimal.number digits ≤ 1) (parts : digits = early ++ run)
    (zeros : Decimal.number digits = 0 → ∀ held q, lineByte held d q Version.zero = .next d)
    (ones : Decimal.number digits = 1 → ∀ b, Byte.isDigit b = true → ∀ held q, ∃ fault,
      lineByte held d q b = .refuse d fault)
    (tail : Bytes) : Barred d (seen ++ (run ++ c :: tail)) := by
  rcases Nat.le_one_iff_eq_zero_or_eq_one.mp small with none | one
  · obtain ⟨count, same⟩ := Version.numeralZero numeral none
    refine barredStill cursor (fun held b inside q _ _ => ?_) refused rfl
    have member : b ∈ digits := parts ▸ List.mem_append_right early inside
    rw [same] at member
    rw [List.eq_of_mem_replicate member]
    exact zeros none held q
  · cases run with
    | nil => exact barredAtOnce cursor (by rwa [List.append_nil] at refused) rfl
    | cons b others =>
      have digit := numeral.2 b (by simp [parts])
      exact barredAtOnce cursor (fun rest => ones one b digit _ _) (by rw [List.cons_append])

theorem protocolLetter (start : LineStart) :
    ∀ b ∈ start.protocol, Byte.isDigit b = false ∧ b ≠ Byte.dot ∧ b ≠ Byte.cr := by
  intro b inside
  have folded := List.mem_map_of_mem (f := Byte.lower) inside
  rw [show start.protocol.map Byte.lower = _ from (Bytes.sameLettersIff _ _).mp start.protocolNamed] at folded
  exact nameLetter folded

/-- The one refused draft whose calls may come to an end. The refused call has gone over the second
letter of the protocol name and no other byte, and a repeated call takes that letter for the third. -/
def Lapsed (d : Draft) (seen run : Bytes) : Prop :=
  d.line = .protocol (ascii "tp/") ∧ ∃ (front : LineFront) (first second : UInt8),
    Byte.lower first = 0x68 ∧ Byte.lower second = 0x74 ∧ seen = front.text ++ [first] ∧ run = [second]

theorem barredProtocol {early letters : Bytes} (cursor : d.cursor = seen.length) (refused : Refuses d (seen ++ run) c)
    (state : d.line = .protocol letters) (named : Bytes.fold (early ++ run) ++ letters = ascii "http/") (tail : Bytes) :
    Barred d (seen ++ (run ++ c :: tail)) ∨ letters = ascii "tp/" ∧ ∃ first second, Byte.lower first = 0x68 ∧
      Byte.lower second = 0x74 ∧ early = [first] ∧ run = [second] := by
  cases run with
  | nil => exact .inl (barredAtOnce cursor (by rwa [List.append_nil] at refused) rfl)
  | cons b others =>
    by_cases expected : ∃ later, letters = Byte.lower b :: later
    · obtain ⟨later, rfl⟩ := expected
      have name : ascii "http/" =
          early.map Byte.lower ++ Byte.lower b :: (others.map Byte.lower ++ Byte.lower b :: later) := by
        rw [← named]
        simp [Bytes.fold]
      obtain ⟨once, second, none, behind⟩ := letterTwice name
      obtain ⟨first, rfl, folded⟩ := List.map_eq_singleton_iff.mp once
      exact .inr ⟨by rw [second, behind]; rfl, first, b, folded, second, rfl, by rw [List.map_eq_nil_iff.mp none]⟩
    · refine .inl (barredAtOnce cursor (fun rest => ?_) (by rw [List.cons_append]))
      simp only [lineByte, state, protocolByte]
      split
      · exact ⟨_, rfl⟩
      · rename_i last
        exact ⟨_, if_neg fun same => expected ⟨[], by rw [same]⟩⟩
      · rename_i letter later _
        exact ⟨_, if_neg fun same => expected ⟨later, by rw [same]⟩⟩

theorem barredMajor {early major : Bytes} (start : LineStart) (cursor : d.cursor = seen.length)
    (refused : Refuses d (seen ++ run) c) (state : d.line = .major) (number : d.version.major = Decimal.number major)
    (numeral : Decimal.Numeral major) (small : Decimal.number major ≤ 1) (behind : start.protocol ++ major = early ++ run)
    (tail : Bytes) : Barred d (seen ++ (run ++ c :: tail)) := by
  have digits {front : Bytes} (parts : major = front ++ run) : Barred d (seen ++ (run ++ c :: tail)) := by
    refine barredNumber cursor refused numeral small parts (fun none held q => ?_) (fun one b digit held q => ?_) tail
    · have noMark : Version.zero ≠ Byte.dot := by decide
      have same : { d with version := { d.version with major := 0 }, line := .major } = d := by
        rw [← none, ← number, ← state]
      simp only [lineByte, state, if_neg noMark, majorByte, number, none, Version.extendZeros, same]
    · have noDot : b ≠ Byte.dot := by
        rintro rfl
        contradiction
      obtain ⟨fault, refused⟩ := Version.extendOneFault b
      exact ⟨fault, by simp only [lineByte, state, if_neg noDot, majorByte, number, one, refused]⟩
  rcases List.append_eq_append_iff.mp behind with ⟨front, _, parts⟩ | ⟨letters, name, rest⟩
  · exact digits parts
  · cases letters with
    | nil =>
      have none : major = [] ++ run := by simpa using rest.symm
      exact digits none
    | cons b others =>
      obtain ⟨noDigit, noDot, _⟩ := protocolLetter start b (by simp [name])
      refine barredAtOnce cursor (fun rest => ⟨.invalidVersion, ?_⟩) (by rw [rest, List.cons_append, List.cons_append])
      simp only [lineByte, state, if_neg noDot, majorByte, Version.extendNoDigit noDigit]

theorem lastAhead {front : Bytes} (parts : seen ++ run = front ++ [b]) (some : run ≠ []) : b ∈ run := by
  obtain ⟨before, last, rfl⟩ := run.eq_nil_or_concat.resolve_left some
  rw [List.concat_eq_append, ← List.append_assoc] at parts
  obtain ⟨_, same⟩ := List.append_inj' parts rfl
  simp [(List.cons.inj same).1]

theorem barredMinor {front minor : Bytes} (cursor : d.cursor = seen.length) (refused : Refuses d (seen ++ run) c)
    (state : d.line = .minor) (number : d.version.minor = Decimal.number minor) (numeral : Decimal.Numeral minor)
    (small : Decimal.number minor ≤ 1) (oneLine : Byte.lf ∉ run) (parts : seen ++ run = front ++ [Byte.dot] ++ minor)
    (tail : Bytes) : Barred d (seen ++ (run ++ c :: tail)) := by
  have digits {early : Bytes} (parts : minor = early ++ run) : Barred d (seen ++ (run ++ c :: tail)) := by
    refine barredNumber cursor refused numeral small parts (fun none held q => ?_) (fun one b digit held q => ?_) tail
    · have noMark : Version.zero ≠ Byte.cr := by decide
      have same : { d with version := { d.version with minor := 0 }, line := .minor } = d := by
        rw [← none, ← number, ← state]
      simp only [lineByte, state, if_neg noMark, minorByte, number, none, Version.extendZeros, same]
    · have noCr : b ≠ Byte.cr := by
        rintro rfl
        contradiction
      obtain ⟨fault, refused⟩ := Version.extendOneFault b
      exact ⟨fault, by simp only [lineByte, state, if_neg noCr, minorByte, number, one, refused]⟩
  rcases List.append_eq_append_iff.mp parts with ⟨rest, whole, same⟩ | ⟨early, _, same⟩
  · by_cases none : rest = []
    · have all : minor = [] ++ run := by simp [same, none]
      exact digits all
    · have dot : Byte.dot ∈ run := by
        rw [same]
        exact List.mem_append_left _ (lastAhead whole.symm none)
      exact dotFence.barred (state ▸ .minor) cursor oneLine ⟨_, dot, rfl⟩ _
  · exact digits same

theorem rewound (known : Known d (seen ++ run)) (cursor : d.cursor = seen.length) (refused : Refuses d (seen ++ run) c)
    (tail : Bytes) : Barred d (seen ++ (run ++ c :: tail)) ∨ Lapsed d seen run := by
  obtain ⟨⟨inLine, read⟩, spelled⟩ := known
  have oneLine : Byte.lf ∉ run := fun inside => inLine.oneLine (List.mem_append_right seen inside)
  have here (none : run = []) : Barred d (seen ++ (run ++ c :: tail)) :=
    barredStill cursor (by simp [none]) refused rfl
  generalize parts : seen ++ run = text at read
  cases d
  simp only at read
  cases read with
  | start => exact .inl (here (List.append_eq_nil_iff.mp parts).2)
  | method some short =>
    subst parts
    exact .inl (barredMethod cursor refused rfl rfl (spelled rfl) short tail)
  | beforeTarget m blank same =>
    exact .inl (barredBeforeTarget cursor refused rfl blank (parts.trans same) tail)
  | target m blank some unbroken begun same =>
    refine .inl (barredTarget cursor refused rfl begun (fun b inside => (unbroken b inside).1) ?_ (parts.trans same) tail)
    refine List.forall_mem_append.mpr ⟨List.forall_mem_append.mpr ⟨fun b inside => ?_, ?_⟩, fun b inside => ?_⟩
    · exact (Byte.letterPlain (m.tokenLetter b inside)).2
    · exact List.forall_mem_cons.mpr ⟨rfl, fun b inside => (Byte.blankPlain (blank b inside)).2⟩
    · exact (unbroken b inside).2
  | beforeVersion front => exact .inl (barredBeforeVersion front cursor refused rfl oneLine parts.symm tail)
  | @protocol mark text front begun rest named same =>
    rcases front.cut (parts.trans same) with ahead | ⟨early, before, behind⟩
    · have solid : (ascii "http/").all (fun b => !Byte.isBlank b) = true := rfl
      rw [← named, List.all_append, Bool.and_eq_true] at solid
      exact .inl (lateFence.barred (.ofAll solid.2) cursor oneLine ahead _)
    · subst behind
      rcases barredProtocol cursor refused rfl named tail with barred | ⟨told, first, second, folded⟩
      · exact .inl barred
      · exact .inr ⟨congrArg LineState.protocol told, front, first, second, folded.1, folded.2.1,
          by rw [before, folded.2.2.1], folded.2.2.2⟩
  | majorFirst start =>
    rcases start.toLineFront.cut parts with ahead | ⟨early, before, behind⟩
    · exact .inl (lateFence.barred .majorFirst cursor oneLine ahead _)
    · cases run with
      | nil => exact .inl (here rfl)
      | cons b others =>
        have other := (protocolLetter start b (by simp [behind])).1
        refine .inl (barredAtOnce cursor (fun rest => ⟨.invalidVersion, ?_⟩) (by rw [List.cons_append]))
        simp only [lineByte, majorByte, Version.extendNoDigit other]
  | @major mark text start major numeral small same =>
    rw [LineStart.text, List.append_assoc] at same
    rcases start.toLineFront.cut (parts.trans same) with ahead | ⟨early, before, behind⟩
    · exact .inl (lateFence.barred .major cursor oneLine ahead _)
    · exact .inl (barredMajor start cursor refused rfl rfl numeral small behind tail)
  | @minorFirst mark text start major digits same =>
    by_cases none : run = []
    · exact .inl (here none)
    · have whole : seen ++ run = start.text ++ major ++ [Byte.dot] := by rw [parts, same, List.append_assoc]
      have dot : Byte.dot ∈ run := lastAhead whole none
      exact .inl (dotFence.barred .minorFirst cursor oneLine ⟨_, dot, rfl⟩ _)
  | @minor mark text start major minor digits numeral small same =>
    have whole : seen ++ run = start.text ++ major ++ [Byte.dot] ++ minor := by simp [parts, same]
    exact .inl (barredMinor cursor refused rfl rfl numeral small oneLine whole tail)
  | @lineEnd mark text start major minor digits minorDigits same =>
    cases run with
    | nil => exact .inl (here rfl)
    | cons b others =>
      have other : b ≠ Byte.lf := fun lf => oneLine (by simp [lf])
      refine .inl (barredAtOnce cursor (fun rest => ⟨.invalidVersion, ?_⟩) (by rw [List.cons_append]))
      simp only [lineByte, if_neg other]

end Draft
end StaticHttp
