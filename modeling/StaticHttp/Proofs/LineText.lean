import StaticHttp.Draft.RequestLine
import StaticHttp.Proofs.Numerals
import StaticHttp.Proofs.TargetText
/-! Request lines as text. A line is put together from its parts, with any number of
blanks between them and the protocol name in any letter case, and the reader finds
the parts again wherever the buffer goes on behind it. Of a version that is too high
it takes what comes before the digit at which that shows. -/
namespace StaticHttp

namespace Byte

theorem blankPlain {b : UInt8} (blank : isBlank b = true) : isLetter b = false ∧ isBreak b = false := by
  simp only [isBlank, Bool.or_eq_true, beq_iff_eq] at blank
  rcases blank with rfl | rfl
  · decide
  · decide

theorem blankNone : ∀ b ∈ ([] : Bytes), isBlank b = true := List.forall_mem_nil _

theorem blankSpace : ∀ b ∈ [space], isBlank b = true := List.forall_mem_singleton.mpr rfl

end Byte

namespace Span

theorem sliceMiddle (front bytes rest : Bytes) (word : (front ++ (bytes ++ rest)).length < Word.size) :
    (⟨front.length, bytes.length⟩ : Span).slice? (front ++ (bytes ++ rest)) = some bytes := by
  rw [sliceInside word (by simp), List.drop_left, List.take_left]

end Span

namespace Draft
variable {α : Type} {step : Draft → Nat → UInt8 → Verdict α} {d e : Draft} {position : Nat}

theorem scanNext {b : UInt8} (next : step d position b = .next e) (rest : Bytes) :
    scan step d position (b :: rest) = scan step e (position + 1) rest := by
  simp only [scan, next]

theorem scanStop {b : UInt8} {result : α} (stop : step d position b = .stop e result) (rest : Bytes) :
    scan step d position (b :: rest) = (e, .found result) := by
  simp only [scan, stop]

theorem scanRun {run : Bytes} (stays : ∀ b ∈ run, ∀ q, position ≤ q → q < position + run.length → step d q b = .next d)
    (rest : Bytes) : scan step d position (run ++ rest) = scan step d (position + run.length) rest := by
  induction run generalizing position with
  | nil => rfl
  | cons b run ih =>
    have here := stays b (by simp) position (Nat.le_refl _) (by simp)
    have further : ∀ c ∈ run, ∀ q, position + 1 ≤ q → q < position + 1 + run.length → step d q c = .next d :=
      fun c inside q lower upper =>
        stays c (List.mem_cons_of_mem _ inside) q (by omega) (by simp only [List.length_cons]; omega)
    rw [List.cons_append, scanNext here, ih further, List.length_cons]
    congr 1
    omega

theorem extendDigit {n : Nat} {b : UInt8} (digit : Byte.isDigit b = true) (small : n * 10 + Decimal.value b ≤ 1) :
    Version.extend n b = .ok (n * 10 + Decimal.value b) := by
  have short : ¬ n * 10 + (b.toNat - 0x30) > 1 := Nat.not_lt.mpr small
  simp only [Version.extend, digit, if_true, if_neg short]
  rfl

theorem scanDigits (state : Nat → Draft)
    (reads : ∀ n q b m, Version.extend n b = .ok m → step (state n) q b = .next (state m)) {n : Nat} {digits : Bytes}
    (each : ∀ b ∈ digits, Byte.isDigit b = true) (small : Decimal.numberFrom n digits ≤ 1) (rest : Bytes) :
    scan step (state n) position (digits ++ rest) =
      scan step (state (Decimal.numberFrom n digits)) (position + digits.length) rest := by
  induction digits generalizing n position with
  | nil => rfl
  | cons b digits ih =>
    have extended := extendDigit (each b (by simp)) (Nat.le_trans (Decimal.numberFromLe _ digits) small)
    rw [List.cons_append, scanNext (reads n position b _ extended),
      ih (fun c inside => each c (List.mem_cons_of_mem _ inside)) small, List.length_cons]
    congr 1
    omega

theorem scanNumber (state : Nat → Draft) (starts : ∀ q b m, Version.extend 0 b = .ok m → step d q b = .next (state m))
    (reads : ∀ n q b m, Version.extend n b = .ok m → step (state n) q b = .next (state m)) {digits : Bytes}
    (numeral : Decimal.Numeral digits) (small : Decimal.number digits ≤ 1) (rest : Bytes) :
    scan step d position (digits ++ rest) =
      scan step (state (Decimal.number digits)) (position + digits.length) rest := by
  obtain ⟨some, each⟩ := numeral
  cases digits with
  | nil => contradiction
  | cons b digits =>
    have extended := extendDigit (n := 0) (each b (by simp)) (Nat.le_trans (Decimal.numberFromLe _ digits) small)
    rw [List.cons_append, scanNext (starts position b _ extended),
      scanDigits state reads (fun c inside => each c (List.mem_cons_of_mem _ inside)) small, List.length_cons]
    congr 1
    omega

end Draft

namespace Version

/- What a number above one has come to before the digit that is refused. -/
def reached (number : Nat) : Nat := if number ≤ 1 then number else reached (number / 10)
  termination_by number
  decreasing_by omega

theorem reachedSmall {number : Nat} (small : number ≤ 1) : reached number = number := by
  rw [reached, if_pos small]

theorem reachedDigit {n value : Nat} (digit : value < 10) (large : 1 < n * 10 + value) :
    reached (n * 10 + value) = reached n := by
  rw [reached, if_neg (Nat.not_le.mpr large)]
  congr 1
  omega

theorem reachedFrom {n : Nat} {digits : Bytes} (large : 1 < n) (each : ∀ b ∈ digits, Byte.isDigit b = true) :
    reached (Decimal.numberFrom n digits) = reached n := by
  induction digits generalizing n with
  | nil => rfl
  | cons b digits ih =>
    have digit := Decimal.valueSmall (each b (by simp))
    have grown : 1 < n * 10 + Decimal.value b := by omega
    exact (ih grown fun c inside => each c (List.mem_cons_of_mem _ inside)).trans (reachedDigit digit grown)

def ofNumbers (major minor : Nat) : Version := ⟨reached major, if major ≤ 1 then reached minor else 0⟩

theorem ofNumbersSmall {major minor : Nat} (majorSmall : major ≤ 1) (minorSmall : minor ≤ 1) :
    ofNumbers major minor = ⟨major, minor⟩ := by
  simp only [ofNumbers, reachedSmall majorSmall, reachedSmall minorSmall, if_pos majorSmall]

end Version

namespace Draft
variable {step : Draft → Nat → UInt8 → Verdict Unit} {d : Draft} {position : Nat}

theorem extendLarge {n : Nat} {b : UInt8} (digit : Byte.isDigit b = true) (large : 1 < n * 10 + Decimal.value b) :
    Version.extend n b = .error .unsupportedVersion := by
  have long : n * 10 + (b.toNat - 0x30) > 1 := large
  simp only [Version.extend, digit, if_true, if_pos long]

theorem scanDigitsLarge (state : Nat → Draft)
    (reads : ∀ n q b m, Version.extend n b = .ok m → step (state n) q b = .next (state m))
    (refuses : ∀ n q b, Version.extend n b = .error .unsupportedVersion →
      step (state n) q b = .refuse (state n) .unsupportedVersion)
    {n : Nat} {digits : Bytes} (small : n ≤ 1) (each : ∀ b ∈ digits, Byte.isDigit b = true)
    (large : 1 < Decimal.numberFrom n digits) (rest : Bytes) :
    scan step (state n) position (digits ++ rest) =
      (state (Version.reached (Decimal.numberFrom n digits)), .failed .unsupportedVersion) := by
  induction digits generalizing n position with
  | nil => exact absurd large (Nat.not_lt.mpr small)
  | cons b digits ih =>
    have digit := each b (by simp)
    have further : ∀ c ∈ digits, Byte.isDigit c = true := fun c inside => each c (List.mem_cons_of_mem _ inside)
    by_cases fits : n * 10 + Decimal.value b ≤ 1
    · rw [List.cons_append, scanNext (reads n position b _ (extendDigit digit fits)), ih fits further large]
      rfl
    · have long := Nat.not_le.mp fits
      have told : Version.reached (Decimal.numberFrom n (b :: digits)) = n :=
        (Version.reachedFrom long further).trans
          ((Version.reachedDigit (Decimal.valueSmall digit) long).trans (Version.reachedSmall small))
      simp only [List.cons_append, scan, refuses n position b (extendLarge digit long), told]

theorem scanNumberLarge (state : Nat → Draft) (starts : ∀ q b m, Version.extend 0 b = .ok m → step d q b = .next (state m))
    (stops : ∀ q b, Version.extend 0 b = .error .unsupportedVersion → step d q b = .refuse d .unsupportedVersion)
    (reads : ∀ n q b m, Version.extend n b = .ok m → step (state n) q b = .next (state m))
    (refuses : ∀ n q b, Version.extend n b = .error .unsupportedVersion →
      step (state n) q b = .refuse (state n) .unsupportedVersion)
    {digits : Bytes} (numeral : Decimal.Numeral digits) (large : 1 < Decimal.number digits) (rest : Bytes) :
    ∃ e, scan step d position (digits ++ rest) = (e, .failed .unsupportedVersion) ∧
      (e = state (Version.reached (Decimal.number digits)) ∨ e = d ∧ Version.reached (Decimal.number digits) = 0) := by
  obtain ⟨some, each⟩ := numeral
  cases digits with
  | nil => contradiction
  | cons b digits =>
    have digit := each b (by simp)
    have further : ∀ c ∈ digits, Byte.isDigit c = true := fun c inside => each c (List.mem_cons_of_mem _ inside)
    by_cases fits : 0 * 10 + Decimal.value b ≤ 1
    · refine ⟨_, ?_, .inl rfl⟩
      rw [List.cons_append, scanNext (starts position b _ (extendDigit digit fits)),
        scanDigitsLarge state reads refuses fits further large]
      rfl
    · have long := Nat.not_le.mp fits
      have told : Version.reached (Decimal.number (b :: digits)) = 0 :=
        (Version.reachedFrom long further).trans
          ((Version.reachedDigit (Decimal.valueSmall digit) long).trans (Version.reachedSmall (Nat.zero_le 1)))
      refine ⟨d, ?_, .inr ⟨rfl, told⟩⟩
      simp only [List.cons_append, scan, stops position b (extendLarge digit long)]

end Draft

structure LineFront where
  method : Method
  gap : Bytes
  target : Bytes
  space : Bytes
  gapBlank : ∀ b ∈ gap, Byte.isBlank b = true
  targetUnbroken : ∀ b ∈ target, Byte.isBlank b = false ∧ Byte.isBreak b = false
  spaceSome : space ≠ []
  spaceBlank : ∀ b ∈ space, Byte.isBlank b = true

structure LineStart extends LineFront where
  protocol : Bytes
  protocolNamed : protocol.sameLetters (ascii "http/") = true

structure LineText extends LineStart where
  major : Bytes
  minor : Bytes
  majorNumeral : Decimal.Numeral major
  minorNumeral : Decimal.Numeral minor

structure RequestText extends LineText where
  majorOne : Decimal.number major = 1
  minorSmall : Decimal.number minor ≤ 1

namespace LineFront

def whole (front : LineFront) : Bytes := Byte.slash :: front.target

def path (front : LineFront) : Bytes := front.whole.takeWhile (· != Byte.question)

def opening (front : LineFront) : Bytes := front.method.token ++ Byte.space :: front.gap

def text (front : LineFront) : Bytes := front.opening ++ (front.whole ++ front.space)

end LineFront

namespace LineText

def version (line : LineText) : Version := .ofNumbers (Decimal.number line.major) (Decimal.number line.minor)

def Readable (line : LineText) : Prop := Decimal.number line.major ≤ 1 ∧ Decimal.number line.minor ≤ 1

def text (line : LineText) : Bytes :=
  line.method.token ++ [Byte.space] ++ line.gap ++ line.whole ++ line.space ++ line.protocol ++ line.major ++
    [Byte.dot] ++ line.minor ++ [Byte.cr, Byte.lf]

end LineText

namespace Target

theorem splitSlash {buffer bytes : Bytes} {whole : Span} (sliced : whole.slice? buffer = some (Byte.slash :: bytes)) :
    ∃ parts, split buffer whole = .ok parts := by
  simp only [split, sliced, if_true]
  exact ⟨_, rfl⟩

end Target

namespace RequestText

theorem versionOne (line : RequestText) : line.version = ⟨1, Decimal.number line.minor⟩ := by
  rw [LineText.version, Version.ofNumbersSmall (Nat.le_of_eq line.majorOne) line.minorSmall, line.majorOne]

def plain (method : Method) (target : Bytes)
    (solid : target.all (fun b => !Byte.isBlank b && !Byte.isBreak b) = true) : RequestText where
  method := method
  gap := []
  target := target
  space := [Byte.space]
  protocol := ascii "HTTP/"
  major := ascii "1"
  minor := ascii "1"
  gapBlank := Byte.blankNone
  targetUnbroken b inside := by simpa using List.all_eq_true.mp solid b inside
  spaceSome := List.cons_ne_nil _ _
  spaceBlank := Byte.blankSpace
  protocolNamed := rfl
  majorNumeral := by decide
  minorNumeral := by decide
  majorOne := rfl
  minorSmall := by decide

end RequestText

namespace Draft
variable {buffer rest : Bytes} {d : Draft} {position : Nat}

theorem tokenLetters (m : Method) : ∃ b letters, m.token = b :: letters ∧ Byte.isLetter b = true ∧
    letters.all Byte.isLetter = true ∧ letters.length < Method.longest := by
  cases m with
  | get => exact ⟨_, _, rfl, rfl, rfl, by decide⟩
  | put => exact ⟨_, _, rfl, rfl, rfl, by decide⟩
  | post => exact ⟨_, _, rfl, rfl, rfl, by decide⟩
  | head => exact ⟨_, _, rfl, rfl, rfl, by decide⟩
  | delete => exact ⟨_, _, rfl, rfl, rfl, by decide⟩

theorem scanMethod (m : Method) (rest : Bytes) (sliced : (⟨0, m.token.length⟩ : Span).slice? buffer = some m.token) :
    scan (lineByte buffer) {} 0 (m.token ++ Byte.space :: rest) =
      scan (lineByte buffer) { line := .beforeTarget, method := some m } (m.token.length + 1) rest := by
  obtain ⟨b, letters, token, letter, each, short⟩ := tokenLetters m
  have first : lineByte buffer {} 0 b = .next { line := .method } := by
    simp only [lineByte, letter, if_true]
  have stays : ∀ c ∈ letters, ∀ q, 0 + 1 ≤ q → q < 0 + 1 + letters.length →
      lineByte buffer { line := .method } q c = .next { line := .method } := by
    intro c inside q _ upper
    have room : Byte.isLetter c = true ∧ 0 ≤ q ∧ q - 0 < Method.longest :=
      ⟨List.all_eq_true.mp each c inside, by omega, by omega⟩
    simp only [lineByte, methodByte, if_pos room]
  have ends : lineByte buffer { line := .method } (0 + 1 + letters.length) Byte.space =
      .next { line := .beforeTarget, method := some m } := by
    have length : Span.range 0 (0 + 1 + letters.length) = ⟨0, m.token.length⟩ := by
      simp [Span.range, token, Nat.add_comm]
    have other : ¬ (Byte.isLetter Byte.space = true ∧ 0 ≤ 0 + 1 + letters.length ∧
        0 + 1 + letters.length - 0 < Method.longest) := fun both => absurd both.1 (by decide)
    have known : Method.ofToken? m.token = some m := Method.ofTokenSome.mpr rfl
    simp only [lineByte, methodByte, if_neg other, if_true, length, sliced, Option.bind_some, known]
  rw [token, List.cons_append, scanNext first, scanRun stays, scanNext ends, List.length_cons]
  congr 1
  omega

theorem scanGap {gap : Bytes} (blank : ∀ b ∈ gap, Byte.isBlank b = true) (before : d.line = .beforeTarget) (rest : Bytes) :
    scan (lineByte buffer) d position (gap ++ rest) = scan (lineByte buffer) d (position + gap.length) rest := by
  refine scanRun (fun b inside q _ _ => ?_) rest
  simp only [lineByte, before, blank b inside, if_true]

theorem scanTarget {target : Bytes} {b : UInt8} {parts : Target} (before : d.line = .beforeTarget)
    (unbroken : ∀ b ∈ target, Byte.isBlank b = false ∧ Byte.isBreak b = false) (blank : Byte.isBlank b = true)
    (split : Target.split buffer ⟨position, target.length + 1⟩ = .ok parts) (rest : Bytes) :
    scan (lineByte buffer) d position (Byte.slash :: target ++ b :: rest) =
      scan (lineByte buffer) { d with mark := position, target := parts, line := .beforeVersion }
        (position + target.length + 2) rest := by
  have first : lineByte buffer d position Byte.slash = .next { d with mark := position, line := .target } := by
    have plain : Byte.isBlank Byte.slash = false ∧ Byte.isBreak Byte.slash = false := by decide
    simp [lineByte, before, plain]
  have stays : ∀ c ∈ target, ∀ q, position + 1 ≤ q → q < position + 1 + target.length →
      lineByte buffer { d with mark := position, line := .target } q c =
        .next { d with mark := position, line := .target } := by
    intro c inside q _ _
    obtain ⟨whole, further⟩ := unbroken c inside
    simp [lineByte, targetByte, whole, further]
  have ends : lineByte buffer { d with mark := position, line := .target } (position + 1 + target.length) b =
      .next { d with mark := position, target := parts, line := .beforeVersion } := by
    have length : Span.range position (position + 1 + target.length) = ⟨position, target.length + 1⟩ := by
      simp only [Span.range, Span.mk.injEq, true_and]
      omega
    simp only [lineByte, targetByte, blank, if_true, length, split]
  rw [List.cons_append, scanNext first, scanRun stays, scanNext ends]
  congr 1
  omega

theorem scanSpace {space : Bytes} (blank : ∀ b ∈ space, Byte.isBlank b = true) (before : d.line = .beforeVersion)
    (rest : Bytes) :
    scan (lineByte buffer) d position (space ++ rest) = scan (lineByte buffer) d (position + space.length) rest := by
  refine scanRun (fun b inside q _ _ => ?_) rest
  simp only [lineByte, before, blank b inside, if_true]

theorem scanLetters {letters : Bytes} (some : letters ≠ []) (inside : d.line = .protocol (Bytes.fold letters)) (rest : Bytes) :
    scan (lineByte buffer) d position (letters ++ rest) =
      scan (lineByte buffer) { d with line := .majorFirst } (position + letters.length) rest := by
  induction letters generalizing d position with
  | nil => contradiction
  | cons b letters ih =>
    cases letters with
    | nil =>
      have last : lineByte buffer d position b = .next { d with line := .majorFirst } := by
        simp [lineByte, inside, protocolByte, Bytes.fold]
      exact scanNext last rest
    | cons c others =>
      have next : lineByte buffer d position b = .next { d with line := .protocol (Bytes.fold (c :: others)) } := by
        simp [lineByte, inside, protocolByte, Bytes.fold]
      have further : { d with line := .protocol (Bytes.fold (c :: others)) }.line = .protocol (Bytes.fold (c :: others)) :=
        rfl
      rw [List.cons_append, scanNext next, ih (List.cons_ne_nil c others) further, List.length_cons (a := b)]
      congr 1
      omega

theorem scanProtocol {protocol : Bytes} (named : protocol.sameLetters (ascii "http/") = true)
    (before : d.line = .beforeVersion) (rest : Bytes) :
    scan (lineByte buffer) d position (protocol ++ rest) =
      scan (lineByte buffer) { d with line := .majorFirst } (position + protocol.length) rest := by
  have folded : protocol.map Byte.lower = [0x68, 0x74, 0x74, 0x70, 0x2F] := (Bytes.sameLettersIff _ _).mp named
  obtain ⟨h, letters, rfl, ofH, others⟩ := List.map_eq_cons_iff.mp folded
  have notBlank : Byte.isBlank h = false := by
    cases blank : Byte.isBlank h with
    | false => rfl
    | true =>
      simp only [Byte.isBlank, Bool.or_eq_true, beq_iff_eq] at blank
      rcases blank with rfl | rfl
      · contradiction
      · contradiction
  have first : lineByte buffer d position h = .next { d with line := .protocol (Bytes.fold letters) } := by
    have rest : Bytes.fold letters = protocolRest := others
    simp [lineByte, before, notBlank, ofH, rest]
  have some : letters ≠ [] := by
    rintro rfl
    contradiction
  rw [List.cons_append, scanNext first, scanLetters some rfl, List.length_cons]
  congr 1
  omega

theorem extendNotMark {n m : Nat} {b : UInt8} (extended : Version.extend n b = .ok m) : b ≠ Byte.dot ∧ b ≠ Byte.cr := by
  constructor
  · rintro rfl
    contradiction
  · rintro rfl
    contradiction

theorem scanMajor {digits : Bytes} (numeral : Decimal.Numeral digits) (small : Decimal.number digits ≤ 1)
    (before : d.line = .majorFirst) (rest : Bytes) :
    scan (lineByte buffer) d position (digits ++ rest) =
      scan (lineByte buffer) { d with version := ⟨Decimal.number digits, d.version.minor⟩, line := .major }
        (position + digits.length) rest := by
  refine scanNumber (fun n => { d with version := ⟨n, d.version.minor⟩, line := .major }) (fun q b m extended => ?_)
    (fun n q b m extended => ?_) numeral small rest
  · simp only [lineByte, before, majorByte, extended]
  · simp only [lineByte, if_neg (extendNotMark extended).1, majorByte, extended]

theorem scanMinor {digits : Bytes} (numeral : Decimal.Numeral digits) (small : Decimal.number digits ≤ 1)
    (before : d.line = .minorFirst) (rest : Bytes) :
    scan (lineByte buffer) d position (digits ++ rest) =
      scan (lineByte buffer) { d with version := ⟨d.version.major, Decimal.number digits⟩, line := .minor }
        (position + digits.length) rest := by
  refine scanNumber (fun n => { d with version := ⟨d.version.major, n⟩, line := .minor }) (fun q b m extended => ?_)
    (fun n q b m extended => ?_) numeral small rest
  · simp only [lineByte, before, minorByte, extended]
  · simp only [lineByte, if_neg (extendNotMark extended).2, minorByte, extended]

theorem scanVersion {major minor : Bytes} (majorNumeral : Decimal.Numeral major) (majorSmall : Decimal.number major ≤ 1)
    (minorNumeral : Decimal.Numeral minor) (minorSmall : Decimal.number minor ≤ 1) (before : d.line = .majorFirst)
    (rest : Bytes) :
    scan (lineByte buffer) d position (major ++ Byte.dot :: (minor ++ Byte.cr :: Byte.lf :: rest)) =
      ({ d with
        version := ⟨Decimal.number major, Decimal.number minor⟩
        line := .finished
        field := .start
        cursor := position + (major ++ Byte.dot :: (minor ++ [Byte.cr, Byte.lf])).length }, .found ()) := by
  have dot : lineByte buffer { d with version := ⟨Decimal.number major, d.version.minor⟩, line := .major }
      (position + major.length) Byte.dot =
        .next { d with version := ⟨Decimal.number major, d.version.minor⟩, line := .minorFirst } := rfl
  have cursor : position + major.length + 1 + minor.length + 1 + 1 =
      position + (major ++ Byte.dot :: (minor ++ [Byte.cr, Byte.lf])).length := by
    simp
    omega
  rw [scanMajor majorNumeral majorSmall before, scanNext dot, scanMinor minorNumeral minorSmall rfl, ← cursor]
  rfl

theorem extendMark {n : Nat} {b : UInt8} (extended : Version.extend n b = .error .unsupportedVersion) :
    b ≠ Byte.dot ∧ b ≠ Byte.cr := by
  have others : Version.extend n Byte.dot = .error .invalidVersion ∧ Version.extend n Byte.cr = .error .invalidVersion :=
    ⟨rfl, rfl⟩
  constructor
  · rintro rfl
    cases others.1.symm.trans extended
  · rintro rfl
    cases others.2.symm.trans extended

theorem scanMajorLarge {digits : Bytes} (numeral : Decimal.Numeral digits) (large : 1 < Decimal.number digits)
    (before : d.line = .majorFirst) (unread : d.version.major = 0) (rest : Bytes) :
    ∃ e, scan (lineByte buffer) d position (digits ++ rest) = (e, .failed .unsupportedVersion) ∧
      e.version = ⟨Version.reached (Decimal.number digits), d.version.minor⟩ ∧ e.method = d.method := by
  have read : ∃ e, scan (lineByte buffer) d position (digits ++ rest) = (e, .failed .unsupportedVersion) ∧
      (e = { d with version := ⟨Version.reached (Decimal.number digits), d.version.minor⟩, line := .major } ∨
        e = d ∧ Version.reached (Decimal.number digits) = 0) := by
    refine scanNumberLarge (fun n => { d with version := ⟨n, d.version.minor⟩, line := .major }) (fun q b m extended => ?_)
      (fun q b extended => ?_) (fun n q b m extended => ?_) (fun n q b extended => ?_) numeral large rest
    · simp only [lineByte, before, majorByte, extended]
    · simp only [lineByte, before, majorByte, extended]
    · simp only [lineByte, if_neg (extendNotMark extended).1, majorByte, extended]
    · simp only [lineByte, if_neg (extendMark extended).1, majorByte, extended]
  obtain ⟨e, scanned, rfl | ⟨rfl, zero⟩⟩ := read
  · exact ⟨_, scanned, rfl, rfl⟩
  · exact ⟨_, scanned, by rw [zero, ← unread], rfl⟩

theorem scanMinorLarge {digits : Bytes} (numeral : Decimal.Numeral digits) (large : 1 < Decimal.number digits)
    (before : d.line = .minorFirst) (unread : d.version.minor = 0) (rest : Bytes) :
    ∃ e, scan (lineByte buffer) d position (digits ++ rest) = (e, .failed .unsupportedVersion) ∧
      e.version = ⟨d.version.major, Version.reached (Decimal.number digits)⟩ ∧ e.method = d.method := by
  have read : ∃ e, scan (lineByte buffer) d position (digits ++ rest) = (e, .failed .unsupportedVersion) ∧
      (e = { d with version := ⟨d.version.major, Version.reached (Decimal.number digits)⟩, line := .minor } ∨
        e = d ∧ Version.reached (Decimal.number digits) = 0) := by
    refine scanNumberLarge (fun n => { d with version := ⟨d.version.major, n⟩, line := .minor }) (fun q b m extended => ?_)
      (fun q b extended => ?_) (fun n q b m extended => ?_) (fun n q b extended => ?_) numeral large rest
    · simp only [lineByte, before, minorByte, extended]
    · simp only [lineByte, before, minorByte, extended]
    · simp only [lineByte, if_neg (extendNotMark extended).2, minorByte, extended]
    · simp only [lineByte, if_neg (extendMark extended).2, minorByte, extended]
  obtain ⟨e, scanned, rfl | ⟨rfl, zero⟩⟩ := read
  · exact ⟨_, scanned, rfl, rfl⟩
  · exact ⟨_, scanned, by rw [zero, ← unread], rfl⟩

theorem scanVersionLarge {major minor : Bytes} (majorNumeral : Decimal.Numeral major) (minorNumeral : Decimal.Numeral minor)
    (large : ¬ (Decimal.number major ≤ 1 ∧ Decimal.number minor ≤ 1)) (before : d.line = .majorFirst)
    (unread : d.version = .unread) (rest : Bytes) :
    ∃ e, scan (lineByte buffer) d position (major ++ Byte.dot :: (minor ++ rest)) = (e, .failed .unsupportedVersion) ∧
      e.version = Version.ofNumbers (Decimal.number major) (Decimal.number minor) ∧ e.method = d.method := by
  by_cases majorSmall : Decimal.number major ≤ 1
  · have minorLarge : 1 < Decimal.number minor := Nat.not_le.mp fun small => large ⟨majorSmall, small⟩
    have dot : lineByte buffer { d with version := ⟨Decimal.number major, d.version.minor⟩, line := .major }
        (position + major.length) Byte.dot =
          .next { d with version := ⟨Decimal.number major, d.version.minor⟩, line := .minorFirst } := rfl
    have minorUnread : d.version.minor = 0 := by rw [unread]; rfl
    rw [scanMajor majorNumeral majorSmall before, scanNext dot]
    obtain ⟨e, scanned, version, method⟩ := scanMinorLarge
      (d := { d with version := ⟨Decimal.number major, d.version.minor⟩, line := .minorFirst })
      minorNumeral minorLarge rfl minorUnread rest
    refine ⟨e, scanned, ?_, method⟩
    rw [version, Version.ofNumbers, Version.reachedSmall majorSmall, if_pos majorSmall]
  · obtain ⟨e, scanned, version, method⟩ :=
      scanMajorLarge majorNumeral (Nat.not_le.mp majorSmall) before (by rw [unread]; rfl) (Byte.dot :: (minor ++ rest))
    refine ⟨e, scanned, ?_, method⟩
    rw [version, Version.ofNumbers, if_neg majorSmall, unread]
    rfl

end Draft

namespace LineFront
variable (front : LineFront) (rest : Bytes)

theorem wholeSliced (word : (front.text ++ rest).length < Word.size) :
    (⟨front.opening.length, front.whole.length⟩ : Span).slice? (front.text ++ rest) = some front.whole := by
  have parts : front.text ++ rest = front.opening ++ (front.whole ++ (front.space ++ rest)) := by
    simp [text]
  rw [parts] at word ⊢
  exact Span.sliceMiddle front.opening front.whole _ word

theorem read (word : (front.text ++ rest).length < Word.size) : ∃ parts,
    Target.split (front.text ++ rest) ⟨front.opening.length, front.whole.length⟩ = .ok parts ∧
      ({} : Draft).readRequestLine (front.text ++ rest) =
        Draft.scan (Draft.lineByte (front.text ++ rest))
          { line := .beforeVersion, mark := front.opening.length, method := some front.method, target := parts }
          front.text.length rest := by
  obtain ⟨parts, split⟩ := Target.splitSlash (front.wholeSliced rest word)
  obtain ⟨b, blanks, space⟩ := List.exists_cons_of_ne_nil front.spaceSome
  have blank := front.spaceBlank
  rw [space, List.forall_mem_cons] at blank
  have inParts : front.text ++ rest = front.method.token ++ Byte.space ::
      (front.gap ++ (Byte.slash :: front.target ++ b :: (blanks ++ rest))) := by
    simp [text, opening, whole, space]
  have token : (⟨0, front.method.token.length⟩ : Span).slice? (front.text ++ rest) = some front.method.token := by
    rw [inParts] at word ⊢
    exact Span.sliceMiddle [] front.method.token _ word
  have opened : front.method.token.length + 1 + front.gap.length = front.opening.length := by
    simp [opening]
    omega
  have ends : front.opening.length + front.target.length + 2 + blanks.length = front.text.length := by
    simp [text, whole, space]
    omega
  have scanned : ({} : Draft).readRequestLine (front.text ++ rest) =
      Draft.scan (Draft.lineByte (front.text ++ rest)) {} 0 (front.method.token ++ Byte.space ::
        (front.gap ++ (Byte.slash :: front.target ++ b :: (blanks ++ rest)))) := by
    rw [← inParts]
    rfl
  refine ⟨parts, split, ?_⟩
  rw [scanned, Draft.scanMethod front.method _ token, Draft.scanGap front.gapBlank rfl, opened,
    Draft.scanTarget rfl front.targetUnbroken blank.1 split, Draft.scanSpace blank.2 rfl, ends]

end LineFront

namespace LineText
variable (line : LineText) (rest : Bytes)

def versionText : Bytes := line.protocol ++ (line.major ++ Byte.dot :: (line.minor ++ [Byte.cr, Byte.lf]))

theorem textParts : line.text ++ rest = line.toLineFront.text ++ (line.versionText ++ rest) := by
  simp [text, versionText, LineFront.text, LineFront.opening, LineFront.whole]

inductive Read (held : Bytes) : Draft × Outcome Unit → Prop where
  | found {mark cursor : Nat} {target : Target} (readable : line.Readable) (told : target.Told line.path held)
      (behind : cursor = line.text.length) :
      Read held ({
        line := .finished
        mark := mark
        cursor := cursor
        method := some line.method
        target := target
        version := line.version }, .found ())
  | refused {e : Draft} (large : ¬ line.Readable) (version : e.version = line.version)
      (method : e.method = some line.method) : Read held (e, .failed .unsupportedVersion)

theorem scanRest {held : Bytes} {mark : Nat} {target : Target} (told : target.Told line.path held) {position : Nat}
    (ends : position + line.versionText.length = line.text.length) :
    line.Read held (Draft.scan (Draft.lineByte held)
      { line := .beforeVersion, mark := mark, method := some line.method, target := target } position
      (line.versionText ++ rest)) := by
  have parts : line.versionText ++ rest =
      line.protocol ++ (line.major ++ Byte.dot :: (line.minor ++ Byte.cr :: Byte.lf :: rest)) := by
    simp [versionText]
  rw [parts, Draft.scanProtocol line.protocolNamed rfl]
  by_cases readable : line.Readable
  · have cursor : position + line.protocol.length +
        (line.major ++ Byte.dot :: (line.minor ++ [Byte.cr, Byte.lf])).length = line.text.length := by
      have lengths : line.versionText.length =
          line.protocol.length + (line.major ++ Byte.dot :: (line.minor ++ [Byte.cr, Byte.lf])).length :=
        List.length_append
      omega
    have version : line.version = ⟨Decimal.number line.major, Decimal.number line.minor⟩ :=
      Version.ofNumbersSmall readable.1 readable.2
    rw [Draft.scanVersion line.majorNumeral readable.1 line.minorNumeral readable.2 rfl, cursor, ← version]
    exact .found readable told rfl
  · obtain ⟨e, scanned, version, method⟩ := Draft.scanVersionLarge
      (d := { line := .majorFirst, mark := mark, method := some line.method, target := target })
      line.majorNumeral line.minorNumeral readable rfl rfl (Byte.cr :: Byte.lf :: rest)
    rw [scanned]
    exact .refused readable version method

theorem readLine (word : (line.text ++ rest).length < Word.size) :
    line.Read (line.text ++ rest) (({} : Draft).readRequestLine (line.text ++ rest)) := by
  have parts := line.textParts rest
  have lengths := congrArg List.length (line.textParts [])
  rw [parts] at word ⊢
  obtain ⟨target, split, read⟩ := line.toLineFront.read (line.versionText ++ rest) word
  have told : target.Told line.path _ := Target.splitTold (line.wholeSliced _ word) split
  simp only [List.append_nil, List.length_append] at lengths
  rw [read]
  exact line.scanRest rest told lengths.symm

end LineText

namespace RequestText

theorem readLine (line : RequestText) (rest : Bytes) (word : (line.text ++ rest).length < Word.size) : ∃ mark target,
    ({} : Draft).readRequestLine (line.text ++ rest) =
      ({ line := .finished
         mark := mark
         cursor := line.text.length
         method := some line.method
         target := target
         version := line.version }, .found ()) ∧
    target.path.slice? (line.text ++ rest) = some line.path := by
  have read : line.Read (line.text ++ rest) (({} : Draft).readRequestLine (line.text ++ rest)) :=
    line.toLineText.readLine rest word
  generalize ({} : Draft).readRequestLine (line.text ++ rest) = outcome at read
  cases read with
  | found readable told behind => exact ⟨_, _, by rw [behind], told.path⟩
  | refused large => exact absurd ⟨Nat.le_of_eq line.majorOne, line.minorSmall⟩ large

end RequestText
end StaticHttp
