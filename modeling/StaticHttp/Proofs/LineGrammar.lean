import StaticHttp.Proofs.LineText
import StaticHttp.Proofs.RequestLine
/-! The grammar of request lines. What the reader has taken in is at every byte the
beginning of a line, and its state says how far the line has come: so a line that it
takes is one of the grammar, with the parts that the grammar gives it. -/
namespace StaticHttp

namespace Version

def zero : UInt8 := 0x30
def one : UInt8 := 0x31

def IsOne (digits : Bytes) : Prop := ∃ zeros, digits = List.replicate zeros zero ++ [one]

def Digits (digits : Bytes) : Prop := (∃ zeros, digits = List.replicate (zeros + 1) zero) ∨ IsOne digits

theorem numberZeros (zeros : Nat) (rest : Bytes) :
    Decimal.numberFrom 0 (List.replicate zeros zero ++ rest) = Decimal.numberFrom 0 rest := by
  induction zeros with
  | zero => rfl
  | succ zeros ih => exact ih

theorem smallDigit {b : UInt8} (digit : Byte.isDigit b = true) (small : Decimal.value b ≤ 1) : b = zero ∨ b = one := by
  simp only [Byte.isDigit, Bool.and_eq_true, decide_eq_true_eq, UInt8.le_iff_toNat_le, UInt8.reduceToNat] at digit
  simp only [Decimal.value] at small
  simp only [← UInt8.toNat_inj, zero, one, UInt8.reduceToNat]
  omega

theorem smallDigits {digits : Bytes} (each : ∀ b ∈ digits, Byte.isDigit b = true) (small : Decimal.numberFrom 0 digits ≤ 1) :
    (∃ zeros, digits = List.replicate zeros zero) ∨ IsOne digits := by
  induction digits with
  | nil => exact .inl ⟨0, rfl⟩
  | cons b rest ih =>
    rw [List.forall_mem_cons] at each
    have first : Decimal.value b ≤ 1 :=
      Nat.le_trans (Nat.le_trans (Nat.le_of_eq (Nat.zero_add _).symm) (Decimal.numberFromLe _ rest)) small
    rcases smallDigit each.1 first with rfl | rfl
    · rcases ih each.2 small with ⟨zeros, rfl⟩ | ⟨zeros, rfl⟩
      · exact .inl ⟨zeros + 1, rfl⟩
      · exact .inr ⟨zeros + 1, rfl⟩
    · cases rest with
      | nil => exact .inr ⟨0, rfl⟩
      | cons c rest =>
        have large : 1 * 10 + Decimal.value c ≤ 1 := Nat.le_trans (Decimal.numberFromLe _ rest) small
        omega

theorem zerosNumeral (zeros : Nat) : ∀ b ∈ List.replicate zeros zero, Byte.isDigit b = true := by
  intro b inside
  rw [List.eq_of_mem_replicate inside]
  rfl

theorem oneNumber {digits : Bytes} (isOne : IsOne digits) : Decimal.Numeral digits ∧ Decimal.number digits = 1 := by
  obtain ⟨zeros, rfl⟩ := isOne
  refine ⟨⟨by simp, fun b inside => ?_⟩, numberZeros zeros [one]⟩
  rcases List.mem_append.mp inside with early | last
  · exact zerosNumeral zeros b early
  · rw [List.mem_singleton.mp last]
    rfl

theorem zerosNumber (zeros : Nat) :
    Decimal.Numeral (List.replicate (zeros + 1) zero) ∧ Decimal.number (List.replicate (zeros + 1) zero) = 0 := by
  refine ⟨⟨by simp, zerosNumeral _⟩, ?_⟩
  have number := numberZeros (zeros + 1) []
  rwa [List.append_nil] at number

theorem digitsIff {digits : Bytes} : Digits digits ↔ Decimal.Numeral digits ∧ Decimal.number digits ≤ 1 := by
  constructor
  · rintro (⟨zeros, rfl⟩ | isOne)
    · obtain ⟨numeral, number⟩ := zerosNumber zeros
      exact ⟨numeral, Nat.le_trans (Nat.le_of_eq number) (Nat.zero_le 1)⟩
    · obtain ⟨numeral, number⟩ := oneNumber isOne
      exact ⟨numeral, Nat.le_of_eq number⟩
  · rintro ⟨⟨some, each⟩, small⟩
    rcases smallDigits each small with ⟨zeros, rfl⟩ | isOne
    · cases zeros with
      | zero => contradiction
      | succ zeros => exact .inl ⟨zeros, rfl⟩
    · exact .inr isOne

theorem noDigits : ∀ b ∈ ([] : Bytes), Byte.isDigit b = true := List.forall_mem_nil _

theorem extendSnoc {digits : Bytes} {b : UInt8} {n : Nat} (each : ∀ c ∈ digits, Byte.isDigit c = true)
    (extended : extend (Decimal.number digits) b = .ok n) :
    (Decimal.Numeral (digits ++ [b]) ∧ Decimal.number (digits ++ [b]) ≤ 1) ∧ n = Decimal.number (digits ++ [b]) := by
  have number : Decimal.number (digits ++ [b]) = Decimal.number digits * 10 + Decimal.value b := by
    simp [Decimal.number, Decimal.numberFrom]
  unfold extend at extended
  split at extended
  · rename_i digit
    simp only at extended
    split at extended
    · contradiction
    · rename_i small
      cases extended
      refine ⟨⟨⟨by simp, fun c inside => ?_⟩, ?_⟩, number.symm⟩
      · rcases List.mem_append.mp inside with early | last
        · exact each c early
        · rw [List.mem_singleton.mp last]
          exact digit
      · rw [number]
        exact Nat.not_lt.mp small
  · contradiction

end Version

namespace LineStart
variable (start : LineStart) (rest : Bytes)

def text : Bytes := start.toLineFront.text ++ start.protocol

theorem read (word : (start.text ++ rest).length < Word.size) : ∃ parts,
    Target.split (start.text ++ rest) ⟨start.opening.length, start.whole.length⟩ = .ok parts ∧
      ({} : Draft).readRequestLine (start.text ++ rest) =
        Draft.scan (Draft.lineByte (start.text ++ rest))
          { line := .majorFirst, mark := start.opening.length, method := some start.method, target := parts }
          start.text.length rest := by
  have inParts : start.text ++ rest = start.toLineFront.text ++ (start.protocol ++ rest) := List.append_assoc _ _ _
  have ends : start.toLineFront.text.length + start.protocol.length = start.text.length := by
    simp [text]
  rw [inParts] at word ⊢
  obtain ⟨parts, split, read⟩ := start.toLineFront.read (start.protocol ++ rest) word
  exact ⟨parts, split, by rw [read, Draft.scanProtocol start.protocolNamed rfl, ends]⟩

end LineStart

namespace LineText
variable (line : LineText)

def Supported : Prop := Version.Digits line.major ∧ Version.Digits line.minor

def ofStart (start : LineStart) {major minor : Bytes} (majorDigits : Version.Digits major) (minorDigits : Version.Digits minor) :
    LineText := { start with
  major := major
  minor := minor
  majorNumeral := (Version.digitsIff.mp majorDigits).1
  minorNumeral := (Version.digitsIff.mp minorDigits).1 }

theorem startText (rest : Bytes) : line.text ++ rest =
    line.toLineStart.text ++ (line.major ++ Byte.dot :: (line.minor ++ Byte.cr :: Byte.lf :: rest)) := by
  simp [textParts, LineStart.text, versionText]

theorem readSupported (supported : line.Supported) (rest : Bytes) (word : (line.text ++ rest).length < Word.size) :
    ∃ parts, Target.split (line.text ++ rest) ⟨line.opening.length, line.whole.length⟩ = .ok parts ∧
      ({} : Draft).readRequestLine (line.text ++ rest) =
        ({ line := .finished
           mark := line.opening.length
           cursor := line.text.length
           method := some line.method
           target := parts
           version := ⟨Decimal.number line.major, Decimal.number line.minor⟩ }, .found ()) := by
  obtain ⟨majorNumeral, majorSmall⟩ := Version.digitsIff.mp supported.1
  obtain ⟨minorNumeral, minorSmall⟩ := Version.digitsIff.mp supported.2
  have whole := line.startText []
  have ends : line.toLineStart.text.length + (line.major ++ Byte.dot :: (line.minor ++ [Byte.cr, Byte.lf])).length =
      line.text.length := by
    rw [← List.length_append, ← whole, List.append_nil]
  rw [startText] at word ⊢
  obtain ⟨parts, split, read⟩ := line.toLineStart.read _ word
  refine ⟨parts, split, ?_⟩
  rw [read, Draft.scanVersion majorNumeral majorSmall minorNumeral minorSmall rfl, ends]

end LineText

namespace Draft
open Version (Digits IsOne)

/-- How far a line has come in each state of the reader: the text that has been read, where
the token that is being read began, and the version as far as it has been told. -/
inductive LineRead : LineState → Nat → Version → Bytes → Prop where
  | start {mark : Nat} : LineRead .start mark .unread []
  | method {letters : Bytes} (some : letters ≠ []) (short : letters.length ≤ Method.longest) :
      LineRead .method 0 .unread letters
  | beforeTarget {mark : Nat} {text : Bytes} (m : Method) {gap : Bytes} (blank : ∀ b ∈ gap, Byte.isBlank b = true)
      (parts : text = m.token ++ Byte.space :: gap) : LineRead .beforeTarget mark .unread text
  | target {mark : Nat} {text : Bytes} (m : Method) {gap whole : Bytes} (blank : ∀ b ∈ gap, Byte.isBlank b = true)
      (some : whole ≠ []) (unbroken : ∀ b ∈ whole, Byte.isBlank b = false ∧ Byte.isBreak b = false)
      (begun : mark = (m.token ++ Byte.space :: gap).length) (parts : text = m.token ++ Byte.space :: gap ++ whole) :
      LineRead .target mark .unread text
  | beforeVersion {mark : Nat} (front : LineFront) : LineRead .beforeVersion mark .unread front.text
  | protocol {mark : Nat} {text : Bytes} (front : LineFront) {begun rest : Bytes}
      (named : Bytes.fold begun ++ rest = ascii "http/") (parts : text = front.text ++ begun) :
      LineRead (.protocol rest) mark .unread text
  | majorFirst {mark : Nat} (start : LineStart) : LineRead .majorFirst mark .unread start.text
  | major {mark : Nat} {text : Bytes} (start : LineStart) {major : Bytes} (numeral : Decimal.Numeral major)
      (small : Decimal.number major ≤ 1) (parts : text = start.text ++ major) :
      LineRead .major mark ⟨Decimal.number major, 0⟩ text
  | minorFirst {mark : Nat} {text : Bytes} (start : LineStart) {major : Bytes} (digits : Digits major)
      (parts : text = start.text ++ (major ++ [Byte.dot])) : LineRead .minorFirst mark ⟨Decimal.number major, 0⟩ text
  | minor {mark : Nat} {text : Bytes} (start : LineStart) {major minor : Bytes} (digits : Digits major)
      (numeral : Decimal.Numeral minor) (small : Decimal.number minor ≤ 1)
      (parts : text = start.text ++ (major ++ Byte.dot :: minor)) :
      LineRead .minor mark ⟨Decimal.number major, Decimal.number minor⟩ text
  | lineEnd {mark : Nat} {text : Bytes} (start : LineStart) {major minor : Bytes} (digits : Digits major)
      (minorDigits : Digits minor) (parts : text = start.text ++ (major ++ Byte.dot :: (minor ++ [Byte.cr]))) :
      LineRead .lineEnd mark ⟨Decimal.number major, Decimal.number minor⟩ text

variable {d e : Draft} {text : Bytes} {b : UInt8}

theorem tokenRead {letters : Bytes} {m : Method} (short : letters.length ≤ Method.longest)
    (known : ((Span.range 0 letters.length).slice? (letters ++ [b])).bind Method.ofToken? = some m) : letters = m.token := by
  have word : ([] ++ (letters ++ [b])).length < Word.size := by
    have long : Method.longest + 1 < Word.size := by decide
    simp only [List.nil_append, List.length_append, List.length_singleton]
    omega
  have sliced := Span.sliceMiddle [] letters [b] word
  simp only [Span.range, Nat.sub_zero, List.nil_append, List.length_nil] at known sliced
  rw [sliced, Option.bind_some] at known
  exact Method.ofTokenSome.mp known

theorem wholeRead {opening whole rest : Bytes} {target : Target} (some : whole ≠ [])
    (parted : Target.split (opening ++ whole ++ rest) (.range opening.length (opening ++ whole).length) = .ok target) :
    ∃ behind, whole = Byte.slash :: behind := by
  obtain ⟨first, behind, rfl⟩ := List.exists_cons_of_ne_nil some
  unfold Target.split at parted
  split at parted
  · rename_i c others sliced
    split at parted
    · rename_i slash
      obtain ⟨_, _, bytes⟩ := Span.sliceSomeIff.mp sliced
      have front : c :: others <+: (opening ++ first :: behind ++ rest).drop opening.length :=
        bytes ▸ List.take_prefix _ _
      rw [List.append_assoc, List.drop_left, List.cons_append] at front
      exact ⟨behind, by rw [← (List.cons_prefix_cons.mp front).1, slash]⟩
    · contradiction
  · contradiction

theorem blankSnoc {bytes : Bytes} (blank : ∀ c ∈ bytes, Byte.isBlank c = true) (more : Byte.isBlank b = true) :
    ∀ c ∈ bytes ++ [b], Byte.isBlank c = true :=
  List.forall_mem_append.mpr ⟨blank, List.forall_mem_singleton.mpr more⟩

theorem LineRead.next (read : LineRead d.line d.mark d.version text)
    (next : lineByte (text ++ [b]) d text.length b = .next e) : LineRead e.line e.mark e.version (text ++ [b]) := by
  -- In each state the byte extends the part that is being read, or it closes that part.
  cases d
  simp only at read
  cases read with
  | start =>
    simp only [lineByte] at next
    split at next
    · cases next
      exact .method (List.cons_ne_nil _ _) (Nat.le_add_left 1 5)
    · contradiction
  | method some short =>
    simp only [lineByte, methodByte] at next
    split at next
    · rename_i letter
      cases next
      refine .method (by simp) ?_
      have room := letter.2.2
      simp only [List.length_append, List.length_singleton]
      omega
    · split at next
      · rename_i space
        split at next
        · rename_i m known
          cases next
          rw [space, tokenRead short known]
          exact .beforeTarget m Byte.blankNone rfl
        · contradiction
      · contradiction
  | beforeTarget m blank parts =>
    simp only [lineByte] at next
    split at next
    · rename_i more
      cases next
      exact .beforeTarget m (blankSnoc blank more) (by simp [parts])
    · rename_i solid
      split at next
      · contradiction
      · rename_i unbroken
        cases next
        have plain : ∀ c ∈ [b], Byte.isBlank c = false ∧ Byte.isBreak c = false :=
          List.forall_mem_singleton.mpr ⟨by simpa using solid, by simpa using unbroken⟩
        exact .target m blank (List.cons_ne_nil _ _) plain (by rw [parts]) (by rw [parts])
  | @target mark text m gap whole blank some unbroken begun parts =>
    simp only [lineByte, targetByte] at next
    split at next
    · rename_i space
      split at next
      · rename_i target parted
        cases next
        rw [parts, begun] at parted
        -- That the target has its slash is only known here, where it is parted.
        obtain ⟨behind, rfl⟩ := wholeRead some parted
        rw [List.forall_mem_cons] at unbroken
        have front : text ++ [b] = LineFront.text ⟨m, gap, behind, [b], blank, unbroken.2, List.cons_ne_nil _ _,
            List.forall_mem_singleton.mpr space⟩ := by
          simp [parts, LineFront.text, LineFront.opening, LineFront.whole]
        rw [front]
        exact .beforeVersion _
      · contradiction
    · rename_i solid
      split at next
      · contradiction
      · rename_i further
        cases next
        have plain : ∀ c ∈ whole ++ [b], Byte.isBlank c = false ∧ Byte.isBreak c = false :=
          List.forall_mem_append.mpr ⟨unbroken, List.forall_mem_singleton.mpr ⟨by simpa using solid, by simpa using further⟩⟩
        exact .target m blank (by simp) plain begun (by simp [parts])
  | beforeVersion front =>
    simp only [lineByte] at next
    split at next
    · rename_i more
      cases next
      have longer : front.text ++ [b] = LineFront.text { front with
          space := front.space ++ [b], spaceSome := by simp, spaceBlank := blankSnoc front.spaceBlank more } := by
        simp [LineFront.text, LineFront.opening, LineFront.whole]
      rw [longer]
      exact .beforeVersion _
    · split at next
      · rename_i letter
        cases next
        refine .protocol front ?_ rfl
        rw [Bytes.fold, List.map_singleton, letter]
        rfl
      · contradiction
  | @protocol mark text front begun rest named parts =>
    simp only [lineByte, protocolByte] at next
    split at next
    · contradiction
    · split at next
      · rename_i last letter
        cases next
        have whole : (begun ++ [b]).sameLetters (ascii "http/") = true := by
          have folded : Bytes.fold (begun ++ [b]) = ascii "http/" := by
            rw [← named, Bytes.fold, List.map_append, List.map_singleton, letter]
            rfl
          rw [Bytes.sameLettersIff, folded]
          rfl
        have start : text ++ [b] = LineStart.text ⟨front, begun ++ [b], whole⟩ := by
          simp [parts, LineStart.text]
        rw [start]
        exact .majorFirst _
      · contradiction
    · split at next
      · rename_i letter
        cases next
        refine .protocol front ?_ (by rw [parts, List.append_assoc])
        rw [← named, Bytes.fold, List.map_append, List.map_singleton, letter, List.append_assoc]
        rfl
      · contradiction
  | majorFirst start =>
    simp only [lineByte, majorByte] at next
    split at next
    · rename_i n extended
      cases next
      obtain ⟨⟨numeral, small⟩, rfl⟩ := Version.extendSnoc Version.noDigits extended
      exact .major start numeral small rfl
    · contradiction
  | major start numeral small parts =>
    simp only [lineByte, majorByte] at next
    split at next
    · rename_i dot
      cases next
      exact .minorFirst start (Version.digitsIff.mpr ⟨numeral, small⟩) (by simp [parts, dot])
    · split at next
      · rename_i n extended
        cases next
        obtain ⟨⟨longer, further⟩, rfl⟩ := Version.extendSnoc numeral.2 extended
        exact .major start longer further (by simp [parts])
      · contradiction
  | minorFirst start digits parts =>
    simp only [lineByte, minorByte] at next
    split at next
    · rename_i n extended
      cases next
      obtain ⟨⟨numeral, small⟩, rfl⟩ := Version.extendSnoc Version.noDigits extended
      exact .minor start digits numeral small (by simp [parts])
    · contradiction
  | minor start digits numeral small parts =>
    simp only [lineByte, minorByte] at next
    split at next
    · rename_i cr
      cases next
      exact .lineEnd start digits (Version.digitsIff.mpr ⟨numeral, small⟩) (by simp [parts, cr])
    · split at next
      · rename_i n extended
        cases next
        obtain ⟨⟨longer, further⟩, rfl⟩ := Version.extendSnoc numeral.2 extended
        exact .minor start digits longer further (by simp [parts])
      · contradiction
  | lineEnd start digits minorDigits parts =>
    simp only [lineByte] at next
    split at next
    · contradiction
    · contradiction

theorem LineRead.stop (read : LineRead d.line d.mark d.version text) (unfinished : d.line ≠ .finished)
    (stopped : lineByte (text ++ [b]) d text.length b = .stop e ()) :
    ∃ line : LineText, line.Supported ∧ line.text = text ++ [b] := by
  obtain ⟨state, rfl, _⟩ := lineStop unfinished stopped
  rw [state] at read
  generalize d.version = version at read
  cases read with
  | lineEnd start digits minorDigits parts =>
    refine ⟨.ofStart start digits minorDigits, ⟨digits, minorDigits⟩, ?_⟩
    have whole := (LineText.ofStart start digits minorDigits).startText []
    rw [List.append_nil] at whole
    rw [whole, parts]
    simp only [LineText.ofStart, List.append_assoc, List.cons_append, List.nil_append]

theorem grammarSteady : Steady lineByte fun d text => InLine d text ∧ LineRead d.line d.mark d.version text :=
  lineSteady.sharpen (fun alike read => by rw [alike.eqParked]; exact read) fun _ read next => read.next next

theorem freshRead : InLine {} [] ∧ LineRead .start 0 .unread [] := ⟨freshInLine, .start⟩

theorem lineKeepsCursor (buffer : Bytes) (d : Draft) (position : Nat) (b : UInt8) :
    lineByte buffer d position b = (lineByte buffer d position b).parked d.cursor := by
  by_cases finished : d.line = .finished
  · simp only [lineByte, finished]
    rfl
  · exact lineParked buffer position b d.cursor finished

theorem foundLine {buffer : Bytes} (found : (({} : Draft).readRequestLine buffer).2 = .found ()) :
    ∃ line : LineText, line.Supported ∧ line.text <+: buffer := by
  obtain ⟨f, text, b, after, parts, known, stopped⟩ :=
    resumeFound grammarSteady (Nat.zero_le _) freshRead (Prod.ext rfl found)
  obtain ⟨line, supported, same⟩ := known.2.stop known.1.unfinished stopped
  exact ⟨line, supported, after, by rw [same, parts]; simp⟩

/-- The reader takes exactly the lines of the grammar, with the parts that it gives them. Of any
other text it asks for more behind the last byte, or refuses it where it began; a line end is
never taken for granted. -/
theorem requestLineGrammar (buffer : Bytes) (word : buffer.length < Word.size) :
    let read := ({} : Draft).readRequestLine buffer
    (read.2 = .found () ↔ ∃ line : LineText, line.Supported ∧ line.text <+: buffer) ∧
      (∀ line : LineText, line.Supported → line.text <+: buffer →
        read.1.method = some line.method ∧
        Target.split buffer ⟨line.opening.length, line.whole.length⟩ = .ok read.1.target ∧
        read.1.version = ⟨Decimal.number line.major, Decimal.number line.minor⟩ ∧
        read.1.cursor = line.text.length) ∧
      (read.2 ≠ .found () → read.2 = .more ∧ read.1.cursor = buffer.length ∨
        ∃ fault, read.2 = .failed fault ∧ read.1.cursor = 0) ∧
      (Byte.lf ∉ buffer → read.2 ≠ .found ()) := by
  intro read
  have taken : ∀ line : LineText, line.Supported → line.text <+: buffer →
      ∃ parts, Target.split buffer ⟨line.opening.length, line.whole.length⟩ = .ok parts ∧
        read = ({ line := .finished, mark := line.opening.length, cursor := line.text.length, method := some line.method
                  target := parts, version := ⟨Decimal.number line.major, Decimal.number line.minor⟩ }, .found ()) := by
    rintro line supported ⟨rest, rfl⟩
    exact line.readSupported supported rest word
  refine ⟨⟨foundLine, ?_⟩, ?_, ?_, ?_⟩
  · rintro ⟨line, supported, inside⟩
    obtain ⟨_, _, same⟩ := taken line supported inside
    rw [same]
  · intro line supported inside
    obtain ⟨parts, split, same⟩ := taken line supported inside
    simp only [same, split, and_self]
  · intro other
    cases ended : read.2 with
    | more => exact .inl ⟨rfl, (resumeMore grammarSteady (Nat.zero_le _) freshRead (Prod.ext rfl ended)).1⟩
    | found _ => exact absurd ended other
    | failed fault =>
      exact .inr ⟨fault, rfl, scanFailed (lineKeepsCursor buffer) (Prod.ext rfl ended)⟩
  · intro unbroken ended
    obtain ⟨line, _, rest, rfl⟩ := foundLine ended
    exact unbroken (by simp [LineText.text])

theorem requestLineGrammarOfZeros :
    let start : LineStart := { (RequestText.plain .put (ascii "a?b.c") rfl).toLineStart with
      gap := [Byte.tab], gapBlank := List.forall_mem_singleton.mpr rfl, protocol := ascii "HtTp/", protocolNamed := rfl }
    let line := LineText.ofStart start (.inr ⟨2, rfl⟩) (.inl ⟨1, rfl⟩)
    let buffer := ascii "PUT \t/a?b.c HtTp/001.00\r\nHost"
    let other := ascii "GET / HTTP/10.1\r\n"
    line.Supported ∧ line.text <+: buffer ∧ (({} : Draft).readRequestLine buffer).1.version = .http10 ∧
      (({} : Draft).readRequestLine buffer).1.cursor = 25 ∧
      ¬ ∃ line : LineText, line.Supported ∧ line.text <+: other := by
  intro start line buffer other
  have word : buffer.length < Word.size ∧ other.length < Word.size := by decide +kernel
  have supported : line.Supported := ⟨.inr ⟨2, rfl⟩, .inl ⟨1, rfl⟩⟩
  have inside : line.text <+: buffer := ⟨ascii "Host", by decide +kernel⟩
  have refused : (({} : Draft).readRequestLine other).2 = .failed .unsupportedVersion := by decide +kernel
  obtain ⟨_, parts, _⟩ := requestLineGrammar buffer word.1
  obtain ⟨_, _, version, cursor⟩ := parts line supported inside
  refine ⟨supported, inside, version.trans (by decide +kernel), cursor.trans (by decide +kernel), fun taken => ?_⟩
  have found := (requestLineGrammar other word.2).1.mpr taken
  exact absurd (refused.symm.trans found) (by simp)

end Draft
end StaticHttp
