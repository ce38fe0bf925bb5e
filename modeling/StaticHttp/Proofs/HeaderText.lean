import StaticHttp.Proofs.Headers
import StaticHttp.Proofs.LineText
import StaticHttp.Proofs.Lookup
/-! Header lines as text, and what a list of them means. A line that is refused is
known by its name and value alone; the others mean what the last line of each name
says. The reader is shown to make the same of them, line by line. -/
namespace StaticHttp

/-- A header line in all its parts. The value is trimmed, with the blanks around it
apart; the line ends with LF alone or with CR LF. -/
structure FieldText where
  name : Bytes
  gap : Bytes
  value : Bytes
  trail : Bytes
  ending : Bytes
  nameSome : name ≠ []
  nameBytes : ∀ b ∈ name, Draft.isNameByte b = true
  gapBlank : ∀ b ∈ gap, Byte.isBlank b = true
  valueSome : value ≠ []
  valueUnbroken : ∀ b ∈ value, Byte.isBreak b = false
  valueStarts : ∀ b, value.head? = some b → Byte.isBlank b = false
  valueEnds : ∀ b, value.getLast? = some b → Byte.isBlank b = false
  trailBlank : ∀ b ∈ trail, Byte.isBlank b = true
  endingBreak : ending = [Byte.lf] ∨ ending = [Byte.cr, Byte.lf]

namespace FieldText

def text (line : FieldText) : Bytes :=
  line.name ++ Byte.colon :: (line.gap ++ line.value ++ line.trail ++ line.ending)

def named (field : Field) (line : FieldText) : Bool := line.name.sameLetters field.key

def isLength (value : Bytes) : Bool :=
  decide (Decimal.Numeral value) && 0 < Decimal.number value && Decimal.number value < Word.size

def isReuse (value : Bytes) : Bool :=
  value.sameLetters (ascii "keep-alive") || value.sameLetters (ascii "close")

def isCoding (value : Bytes) : Bool := Coding.all.any fun c => value.sameLetters c.token

def refusal (limits : Limits) (line : FieldText) : Option Status :=
  if line.named .connection then
    if isReuse line.value then none else some .badRequest
  else if line.named .contentLength then
    if isLength line.value then
      if Decimal.number line.value ≤ limits.bodyLimit then none else some .payloadTooLarge
    else some .badRequest
  else if line.named .transferEncoding then
    if isCoding line.value then some .notImplemented else some .badRequest
  else none

def last (field : Field) (lines : List FieldText) : Option Bytes := (lines.reverse.find? (named field)).map value

def reuse (version : Version) (lines : List FieldText) : Bool :=
  match last .connection lines with
  | some value => value.sameLetters (ascii "keep-alive")
  | none => version == .http11

def length (lines : List FieldText) : Nat := ((last .contentLength lines).map Decimal.number).getD 0

def solid (name value : Bytes) : Bool :=
  !name.isEmpty && name.all Draft.isNameByte && !value.isEmpty && value.all fun b => !Byte.isBreak b && !Byte.isBlank b

theorem solidParts {name value : Bytes} (fine : solid name value = true) :
    (name ≠ [] ∧ ∀ b ∈ name, Draft.isNameByte b = true) ∧
      (value ≠ [] ∧ ∀ b ∈ value, Byte.isBreak b = false ∧ Byte.isBlank b = false) := by
  simpa [solid, and_assoc] using fine

def plain (name value : Bytes) (fine : solid name value = true) : FieldText where
  name := name
  gap := [Byte.space]
  value := value
  trail := []
  ending := [Byte.cr, Byte.lf]
  nameSome := (solidParts fine).1.1
  nameBytes := (solidParts fine).1.2
  gapBlank := Byte.blankSpace
  valueSome := (solidParts fine).2.1
  valueUnbroken b inside := ((solidParts fine).2.2 b inside).1
  valueStarts b first := ((solidParts fine).2.2 b (List.mem_of_mem_head? first)).2
  valueEnds b last := ((solidParts fine).2.2 b (List.mem_of_mem_getLast? last)).2
  trailBlank := Byte.blankNone
  endingBreak := .inr rfl

variable {field : Field} {line : FieldText} {lines : List FieldText}

theorem namedOf (hash : Bytes → Nat) (line : FieldText) (field : Field) :
    line.named field = true ↔ Field.ofName? hash line.name = some field :=
  Field.ofNameIff.symm

theorem lastSnoc (field : Field) (lines : List FieldText) (line : FieldText) :
    last field (lines ++ [line]) = if line.named field then some line.value else last field lines := by
  simp only [last, List.reverse_append, List.reverse_singleton, List.singleton_append, List.find?_cons]
  cases line.named field with
  | true => rfl
  | false => rfl

theorem trimmed (line : FieldText) : Bytes.trimRight (line.value ++ line.trail) = line.value := by
  have trail : ∀ b ∈ line.trail.reverse, Byte.isBlank b = true := by simpa using line.trailBlank
  obtain ⟨b, others, last⟩ := List.exists_cons_of_ne_nil (List.reverse_ne_nil_iff.mpr line.valueSome)
  have ends : Byte.isBlank b = false := by
    apply line.valueEnds
    rw [← List.head?_reverse, last]
    rfl
  rw [Bytes.trimRight, List.reverse_append, List.dropWhile_append_of_pos trail, last, List.dropWhile_cons, ends,
    if_neg (by simp), ← last, List.reverse_reverse]

theorem nameSliced (line : FieldText) (front rest : Bytes) (word : (front ++ (line.text ++ rest)).length < Word.size) :
    (⟨front.length, line.name.length⟩ : Span).slice? (front ++ (line.text ++ rest)) = some line.name := by
  rw [text, List.append_assoc] at word ⊢
  exact Span.sliceMiddle front line.name _ word

def front (line : FieldText) : Bytes := line.name ++ Byte.colon :: line.gap

theorem valueSliced (line : FieldText) (before rest : Bytes) (word : (before ++ (line.text ++ rest)).length < Word.size) :
    (⟨(before ++ line.front).length, line.value.length⟩ : Span).slice? (before ++ (line.text ++ rest)) = some line.value ∧
      (⟨(before ++ line.front).length, (line.value ++ line.trail).length⟩ : Span).slice?
        (before ++ (line.text ++ rest)) = some (line.value ++ line.trail) := by
  have parts : before ++ (line.text ++ rest) =
      (before ++ line.front) ++ (line.value ++ (line.trail ++ (line.ending ++ rest))) := by
    simp [text, front]
  have joined : before ++ (line.text ++ rest) =
      (before ++ line.front) ++ ((line.value ++ line.trail) ++ (line.ending ++ rest)) := by
    simp [text, front]
  refine ⟨?_, ?_⟩
  · rw [parts] at word ⊢
    exact Span.sliceMiddle _ _ _ word
  · rw [joined] at word ⊢
    exact Span.sliceMiddle _ _ _ word

end FieldText

namespace FieldText
variable (line : FieldText)

theorem trimmedSpan {buffer value : Bytes} {start length : Nat}
    (sliced : (⟨start, length⟩ : Span).slice? buffer = some value) :
    (Span.range start (start + length)).trimRight buffer = ⟨start, value.trimRight.length⟩ := by
  have range : Span.range start (start + length) = ⟨start, length⟩ := by
    simp [Span.range]
  rw [range, Span.trimRight, sliced]

def behind (buffer : Bytes) (position : Nat) (d : Draft) : Draft :=
  { d with
    field := .start
    mark := position + line.front.length
    cursor := position + line.text.length
    name := ⟨position, line.name.length⟩
    value := (Span.range (position + line.front.length)
      (position + line.front.length + (line.value ++ line.trail).length)).trimRight buffer }

theorem behindValue (before rest : Bytes) (word : (before ++ (line.text ++ rest)).length < Word.size) (d : Draft) :
    (line.behind (before ++ (line.text ++ rest)) before.length d).value =
      ⟨before.length + line.front.length, line.value.length⟩ := by
  have sliced := (line.valueSliced before rest word).2
  rw [List.length_append] at sliced
  rw [behind, trimmedSpan sliced, line.trimmed]

end FieldText

namespace Draft
variable {α : Type} {hash : Bytes → Nat} {limits : Limits} {buffer : Bytes} {d e : Draft} {position : Nat}
  {step : Draft → Nat → UInt8 → Verdict α}

structure GoesOn (buffer : Bytes) (step : Draft → Nat → UInt8 → Verdict α) : Prop where
  next {d e : Draft} {position : Nat} {b : UInt8} (judged : headerByte buffer d position b = .next e) :
    step d position b = .next e

theorem headerGoesOn (buffer : Bytes) : GoesOn buffer (headerByte buffer) := ⟨fun judged => judged⟩

theorem headGoesOn (limits : Limits) (buffer : Bytes) : GoesOn buffer (headByte hash limits buffer) :=
  ⟨fun judged => by simp only [headByte, judged]⟩

theorem nameStays {b : UInt8} (named : isNameByte b = true) : b ≠ Byte.cr ∧ b ≠ Byte.lf ∧ b ≠ Byte.colon := by
  refine ⟨?_, ?_, ?_⟩
  · rintro rfl
    contradiction
  · rintro rfl
    contradiction
  · rintro rfl
    contradiction

theorem scanName (goes : GoesOn buffer step) {name : Bytes} (some : name ≠ []) (named : ∀ b ∈ name, isNameByte b = true)
    (start : d.field = .start) (rest : Bytes) :
    scan step d position (name ++ Byte.colon :: rest) =
      scan step { d with mark := position, name := ⟨position, name.length⟩, field := .beforeValue }
        (position + name.length + 1) rest := by
  cases name with
  | nil => contradiction
  | cons b letters =>
    obtain ⟨cr, lf, _⟩ := nameStays (named b (by simp))
    have first : headerByte buffer d position b = .next { d with mark := position, field := .name } := by
      simp only [headerByte, start, if_neg cr, if_neg lf, named b (by simp), if_true]
    have stays : ∀ c ∈ letters, ∀ q, position + 1 ≤ q → q < position + 1 + letters.length →
        step { d with mark := position, field := .name } q c = .next { d with mark := position, field := .name } := by
      intro c inside q _ _
      have letter := named c (List.mem_cons_of_mem _ inside)
      apply goes.next
      simp only [headerByte, if_neg (nameStays letter).2.2, letter, if_true]
    have length : Span.range position (position + 1 + letters.length) = ⟨position, (b :: letters).length⟩ := by
      simp only [Span.range, List.length_cons, Span.mk.injEq, true_and]
      omega
    have colon : headerByte buffer { d with mark := position, field := .name } (position + 1 + letters.length) Byte.colon =
        .next { d with mark := position, name := ⟨position, (b :: letters).length⟩, field := .beforeValue } := by
      simp only [headerByte, if_true, length]
    rw [List.cons_append, scanNext (goes.next first), scanRun stays, scanNext (goes.next colon), List.length_cons]
    congr 1
    omega

theorem scanBlanks (goes : GoesOn buffer step) {gap : Bytes} (blank : ∀ b ∈ gap, Byte.isBlank b = true)
    (before : d.field = .beforeValue) (rest : Bytes) :
    scan step d position (gap ++ rest) = scan step d (position + gap.length) rest := by
  refine scanRun (fun b inside q _ _ => goes.next ?_) rest
  simp only [headerByte, before, blank b inside, if_true]

theorem scanValue (goes : GoesOn buffer step) {b : UInt8} {others : Bytes} (starts : Byte.isBlank b = false)
    (unbroken : ∀ c ∈ b :: others, Byte.isBreak c = false) (before : d.field = .beforeValue) (rest : Bytes) :
    scan step d position (b :: others ++ rest) =
      scan step { d with mark := position, field := .value } (position + (b :: others).length) rest := by
  have first : headerByte buffer d position b = .next { d with mark := position, field := .value } := by
    simp [headerByte, before, starts, unbroken b (by simp)]
  have stays : ∀ c ∈ others, ∀ q, position + 1 ≤ q → q < position + 1 + others.length →
      step { d with mark := position, field := .value } q c = .next { d with mark := position, field := .value } := by
    intro c inside q _ _
    have plain := unbroken c (List.mem_cons_of_mem _ inside)
    simp only [Byte.isBreak, Bool.or_eq_false_iff, beq_eq_false_iff_ne] at plain
    apply goes.next
    simp only [headerByte, if_neg plain.1, if_neg plain.2]
  rw [List.cons_append, scanNext (goes.next first), scanRun stays, List.length_cons]
  congr 1
  omega

theorem scanParts (goes : GoesOn buffer step) (line : FieldText) (rest : Bytes) (start : d.field = .start) :
    scan step d position (line.text ++ rest) =
      scan step
        { d with
          field := .value
          mark := position + line.front.length
          name := ⟨position, line.name.length⟩ }
        (position + line.front.length + (line.value ++ line.trail).length) (line.ending ++ rest) := by
  obtain ⟨b, others, value⟩ := List.exists_cons_of_ne_nil line.valueSome
  have whole : line.value ++ line.trail = b :: (others ++ line.trail) := by simp [value]
  have starts : Byte.isBlank b = false := line.valueStarts b (by rw [value]; rfl)
  have unbroken : ∀ c ∈ b :: (others ++ line.trail), Byte.isBreak c = false := by
    rw [← whole]
    intro c inside
    rcases List.mem_append.mp inside with early | late
    · exact line.valueUnbroken c early
    · exact (Byte.blankPlain (line.trailBlank c late)).2
  have parts : line.text ++ rest =
      line.name ++ Byte.colon :: (line.gap ++ (b :: (others ++ line.trail) ++ (line.ending ++ rest))) := by
    rw [← whole]
    simp [FieldText.text]
  have front : position + line.name.length + 1 + line.gap.length = position + line.front.length := by
    simp [FieldText.front]
    omega
  rw [parts, scanName goes line.nameSome line.nameBytes start, scanBlanks goes line.gapBlank rfl, front,
    scanValue goes starts unbroken rfl, whole]

theorem scanEnding (goes : GoesOn buffer step) {ending : Bytes} (shape : ending = [Byte.lf] ∨ ending = [Byte.cr, Byte.lf])
    (d : Draft) (inside : d.field = .value) (position : Nat) (rest : Bytes) :
    ∃ (f : Draft) (last : Nat), last + 1 = position + ending.length ∧
      scan step d position (ending ++ rest) = scan step f last (Byte.lf :: rest) ∧
      headerByte buffer f last Byte.lf = .stop
        { endValue buffer d position with field := .start, cursor := position + ending.length } .field := by
  rcases shape with rfl | rfl
  · refine ⟨d, position, rfl, rfl, ?_⟩
    simp only [headerByte, inside]
    rfl
  · have cr : headerByte buffer d position Byte.cr = .next { endValue buffer d position with field := .valueEnd } := by
      simp only [headerByte, inside, if_true]
    exact ⟨_, position + 1, rfl, scanNext (goes.next cr) _, rfl⟩

theorem scanBlank (goes : GoesOn buffer step) {blank : Bytes} (shape : blank = [Byte.lf] ∨ blank = [Byte.cr, Byte.lf])
    (start : d.field = .start) (position : Nat) (rest : Bytes) :
    ∃ (f : Draft) (last : Nat), scan step d position (blank ++ rest) = scan step f last (Byte.lf :: rest) ∧
      headerByte buffer f last Byte.lf = .stop { d with field := .start, cursor := position + blank.length } .blank := by
  rcases shape with rfl | rfl
  · refine ⟨d, position, rfl, ?_⟩
    simp only [headerByte, start]
    rfl
  · have cr : headerByte buffer d position Byte.cr = .next { d with field := .blankEnd } := by
      simp only [headerByte, start, if_true]
    exact ⟨_, position + 1, scanNext (goes.next cr) _, rfl⟩

theorem scanWhole (goes : GoesOn buffer step) (line : FieldText) (start : d.field = .start) (position : Nat) (rest : Bytes) :
    ∃ (f : Draft) (last : Nat), last + 1 = position + line.text.length ∧
      scan step d position (line.text ++ rest) = scan step f last (Byte.lf :: rest) ∧
      headerByte buffer f last Byte.lf = .stop (line.behind buffer position d) .field := by
  obtain ⟨f, last, next, scanned, stopped⟩ := scanEnding goes line.endingBreak
    { d with field := .value, mark := position + line.front.length, name := ⟨position, line.name.length⟩ } rfl
    (position + line.front.length + (line.value ++ line.trail).length) rest
  have ends : position + line.front.length + (line.value ++ line.trail).length + line.ending.length =
      position + line.text.length := by
    simp [FieldText.front, FieldText.text]
    omega
  rw [ends] at next stopped
  exact ⟨f, last, next, (scanParts goes line rest start).trans scanned, stopped⟩

def onward (hash : Bytes → Nat) (limits : Limits) (buffer : Bytes) (acted : Draft × Option Fault) (position : Nat) (rest : Bytes) :
    Draft × Outcome Unit :=
  match acted with
  | (e, none) => scan (headByte hash limits buffer) e position rest
  | (e, some fault) => (e, .failed fault)

theorem scanActs {b : UInt8} (stopped : headerByte buffer d position b = .stop e .field) (rest : Bytes) :
    scan (headByte hash limits buffer) d position (b :: rest) =
      onward hash limits buffer (e.applyLine hash limits buffer) (position + 1) rest := by
  cases acts : e.applyLine hash limits buffer with
  | mk f fault =>
    cases fault with
    | none => simp only [scan, headByte, stopped, acts, onward]
    | some fault => simp only [scan, headByte, stopped, acts, onward]

theorem scanLine (line : FieldText) {before rest : Bytes} (word : (before ++ (line.text ++ rest)).length < Word.size)
    (start : d.field = .start) :
    scan (headByte hash limits (before ++ (line.text ++ rest))) d before.length (line.text ++ rest) =
      onward hash limits (before ++ (line.text ++ rest))
        (applyLine hash limits { d with
          field := .start
          mark := (before ++ line.front).length
          cursor := before.length + line.text.length
          name := ⟨before.length, line.name.length⟩
          value := ⟨(before ++ line.front).length, line.value.length⟩ } (before ++ (line.text ++ rest)))
        (before.length + line.text.length) rest := by
  have trimmed := line.behindValue before rest word d
  obtain ⟨f, last, next, scanned, stopped⟩ := scanWhole (headGoesOn limits _) line start before.length rest
  rw [scanned, scanActs stopped, next, List.length_append, ← trimmed]
  rfl

end Draft

namespace FieldText
variable {hash : Bytes → Nat} {limits : Limits} {buffer : Bytes} {fields : FieldSpans} {version : Version} {lines : List FieldText}
  {line : FieldText} {field : Field} {d e : Draft}

structure Noted (lines : List FieldText) (buffer : Bytes) (fields : FieldSpans) : Prop where
  occurs : ∀ f, (fields.get? f).isSome = lines.any (named f)
  reads : ∀ f, fields.value f buffer = last f lines

structure Means (version : Version) (lines : List FieldText) (buffer : Bytes) (d : Draft) : Prop where
  noted : Noted lines buffer d.fields
  keepAlive : d.keepAlive = reuse version lines
  contentLength : d.contentLength = length lines

theorem Means.same (means : Means version lines buffer d)
    (same : e.fields = d.fields ∧ e.keepAlive = d.keepAlive ∧ e.contentLength = d.contentLength) :
    Means version lines buffer e :=
  ⟨same.1 ▸ means.noted, same.2.1.trans means.keepAlive, same.2.2.trans means.contentLength⟩

theorem namedKnown (known : Field.ofName? hash line.name = some field) (other : Field) :
    line.named other = decide (other = field) := by
  have same : line.named other = true ↔ other = field := by
    rw [namedOf, known, Option.some.injEq, eq_comm]
  rw [Bool.eq_iff_iff, same, decide_eq_true_eq]

theorem namedUnknown (unknown : Field.ofName? hash line.name = none) (other : Field) : line.named other = false := by
  rw [Bool.eq_false_iff, ne_eq, namedOf, unknown]
  simp

theorem Noted.passed (noted : Noted lines buffer fields) (unknown : Field.ofName? hash line.name = none) :
    Noted (lines ++ [line]) buffer fields := by
  refine ⟨fun f => ?_, fun f => ?_⟩
  · simp [noted.occurs f, namedUnknown unknown]
  · simp [noted.reads f, lastSnoc, namedUnknown unknown]

theorem Noted.added (noted : Noted lines buffer fields) (known : Field.ofName? hash line.name = some field) {span : Span}
    (sliced : span.slice? buffer = some line.value) : Noted (lines ++ [line]) buffer (fields.set field span) := by
  refine ⟨fun f => ?_, fun f => ?_⟩
  · rw [List.any_append, ← noted.occurs f, List.any_cons, namedKnown known]
    by_cases same : f = field
    · subst same
      simp [FieldSpans.getSetSame]
    · simp [FieldSpans.getSetOther fields span same, same]
  · rw [lastSnoc, ← noted.reads f, namedKnown known]
    by_cases same : f = field
    · subst same
      simp [FieldSpans.value, FieldSpans.getSetSame, sliced]
    · simp [FieldSpans.value, FieldSpans.getSetOther fields span same, same]

inductive Acts (limits : Limits) (version : Version) (lines : List FieldText) (line : FieldText) (buffer : Bytes) :
    Draft × Option Fault → Prop where
  | accepted {e : Draft} (passes : line.refusal limits = none) (means : Means version (lines ++ [line]) buffer e) :
      Acts limits version lines line buffer (e, none)
  | refused {e : Draft} {fault : Fault} (refused : line.refusal limits = some fault.status)
      (closes : fault.closes = true) (noted : Noted (lines ++ [line]) buffer e.fields)
      (told : e.contentLength = length lines) :
      Acts limits version lines line buffer (e, some fault)

theorem codingActs (noted : Noted (lines ++ [line]) buffer e.fields) (told : e.contentLength = length lines)
    (known : Field.ofName? hash line.name = some .transferEncoding) :
    Acts limits version lines line buffer (Draft.treat limits e .transferEncoding line.value) := by
  have refusal : line.refusal limits = if isCoding line.value then some .notImplemented else some .badRequest := by
    simp [FieldText.refusal, namedKnown known]
  simp only [Draft.treat]
  cases found : Coding.ofValue? line.value with
  | none =>
    have unknown : isCoding line.value = false := by
      rw [isCoding, List.any_eq_false]
      intro coding _ same
      rw [Coding.ofValueIff.mpr same] at found
      contradiction
    exact .refused (by simp [refusal, unknown, Fault.status]) rfl noted told
  | some coding =>
    have listed : coding ∈ Coding.all := by
      cases coding <;> decide
    have recognised : isCoding line.value = true := List.any_eq_true.mpr ⟨coding, listed, Coding.ofValueIff.mp found⟩
    exact .refused (by simp [refusal, recognised, Fault.status]) rfl noted told

section
variable (means : Means version lines buffer d) (noted : Noted (lines ++ [line]) buffer e.fields)
  (same : e.keepAlive = d.keepAlive ∧ e.contentLength = d.contentLength)
include means noted same

theorem connectionActs (known : Field.ofName? hash line.name = some .connection) :
    Acts limits version lines line buffer (Draft.treat limits e .connection line.value) := by
  have refusal : line.refusal limits = if isReuse line.value then none else some .badRequest := by
    simp [FieldText.refusal, namedKnown known]
  have length : length (lines ++ [line]) = length lines := by
    simp [FieldText.length, lastSnoc, namedKnown known]
  have reuse : reuse version (lines ++ [line]) = line.value.sameLetters (ascii "keep-alive") := by
    simp [FieldText.reuse, lastSnoc, namedKnown known]
  have told : e.contentLength = FieldText.length (lines ++ [line]) := by
    rw [same.2, means.contentLength, length]
  simp only [Draft.treat, Draft.announcedReuse]
  by_cases keeps : line.value.sameLetters (ascii "keep-alive") = true
  · simp only [keeps, if_true]
    exact .accepted (by simp [refusal, isReuse, keeps]) ⟨noted, by rw [reuse, keeps], told⟩
  · have lost := Bool.eq_false_iff.mpr keeps
    by_cases closes : line.value.sameLetters (ascii "close") = true
    · simp only [lost, closes, Bool.false_eq_true, if_false, if_true]
      exact .accepted (by simp [refusal, isReuse, closes]) ⟨noted, by rw [reuse, lost], told⟩
    · simp only [lost, Bool.eq_false_iff.mpr closes, Bool.false_eq_true, if_false]
      exact .refused (by simp [refusal, isReuse, keeps, closes, Fault.status]) rfl noted (told.trans length)

theorem lengthActs (known : Field.ofName? hash line.name = some .contentLength) :
    Acts limits version lines line buffer (Draft.treat limits e .contentLength line.value) := by
  have refusal : line.refusal limits =
      if isLength line.value then
        if Decimal.number line.value ≤ limits.bodyLimit then none else some .payloadTooLarge
      else some .badRequest := by
    simp [FieldText.refusal, namedKnown known]
  have length : length (lines ++ [line]) = Decimal.number line.value := by
    simp [FieldText.length, lastSnoc, namedKnown known]
  have reuse : reuse version (lines ++ [line]) = FieldText.reuse version lines := by
    simp [FieldText.reuse, lastSnoc, namedKnown known]
  have kept : e.keepAlive = FieldText.reuse version (lines ++ [line]) := by
    rw [same.1, means.keepAlive, reuse]
  have told : e.contentLength = FieldText.length lines := same.2.trans means.contentLength
  simp only [Draft.treat, Draft.announcedLength]
  cases read : Decimal.read? line.value with
  | none =>
    have unread : isLength line.value = false := by
      rw [Bool.eq_false_iff]
      intro long
      simp only [isLength, Bool.and_eq_true, decide_eq_true_eq] at long
      have known := Decimal.readIff.mpr ⟨long.1.1, rfl, long.2⟩
      rw [read] at known
      contradiction
    exact .refused (by simp [refusal, unread, Fault.status]) rfl noted told
  | some n =>
    obtain ⟨numeral, rfl, word⟩ := Decimal.readIff.mp read
    by_cases zero : Decimal.number line.value = 0
    · simp only [if_pos zero]
      exact .refused (by simp [refusal, isLength, zero, Fault.status]) rfl noted told
    · have isLength : isLength line.value = true := by
        simp [isLength, numeral, word, Nat.pos_of_ne_zero zero]
      by_cases large : Decimal.number line.value > limits.bodyLimit
      · simp only [if_neg zero, if_pos large]
        exact .refused (by simp [refusal, isLength, Nat.not_le.mpr large, Fault.status]) rfl noted told
      · simp only [if_neg zero, if_neg large]
        exact .accepted (by simp [refusal, isLength, Nat.not_lt.mp large]) ⟨noted, kept, length.symm⟩

theorem silentActs (known : Field.ofName? hash line.name = some field) (silent : field.treatment = .none) :
    Acts limits version lines line buffer (e, none) := by
  have others : field ≠ .connection ∧ field ≠ .contentLength ∧ field ≠ .transferEncoding := by
    refine ⟨?_, ?_, ?_⟩
    all_goals
      rintro rfl
      contradiction
  have names (f : Field) (other : field ≠ f) : line.named f = false := by
    rw [namedKnown known]
    exact decide_eq_false other.symm
  have refusal : line.refusal limits = none := by
    simp [FieldText.refusal, names, others]
  have reuse : reuse version (lines ++ [line]) = FieldText.reuse version lines := by
    simp [FieldText.reuse, lastSnoc, names, others]
  have length : length (lines ++ [line]) = FieldText.length lines := by
    simp [FieldText.length, lastSnoc, names, others]
  refine .accepted refusal ⟨noted, ?_, ?_⟩
  · rw [same.1, means.keepAlive, reuse]
  · rw [same.2, means.contentLength, length]

end

theorem lineActs (hash : Bytes → Nat) (limits : Limits) (means : Means version lines buffer d) (name : d.name.slice? buffer = some line.name)
    (value : d.value.slice? buffer = some line.value) : Acts limits version lines line buffer (d.applyLine hash limits buffer) := by
  simp only [Draft.applyLine, name]
  cases known : Field.ofName? hash line.name with
  | none =>
    have names := namedUnknown known
    have refusal : line.refusal limits = none := by simp [FieldText.refusal, names]
    refine .accepted refusal ⟨means.noted.passed known, ?_, ?_⟩
    · rw [means.keepAlive]
      simp [reuse, lastSnoc, names]
    · rw [means.contentLength]
      simp [length, lastSnoc, names]
  | some field =>
    have noted := means.noted.added known value
    simp only [Draft.accept, value]
    cases treated : field.treatment with
    | none => exact silentActs means noted ⟨rfl, rfl⟩ known treated
    | connection =>
      obtain rfl : field = .connection := by cases field <;> first | rfl | contradiction
      exact connectionActs means noted ⟨rfl, rfl⟩ known
    | contentLength =>
      obtain rfl := Draft.treatmentLength treated
      exact lengthActs means noted ⟨rfl, rfl⟩ known
    | transferEncoding =>
      obtain rfl : field = .transferEncoding := by cases field <;> first | rfl | contradiction
      exact codingActs noted means.contentLength known

theorem scanActing (hash : Bytes → Nat) (limits : Limits) (line : FieldText) {before rest : Bytes}
    (word : (before ++ (line.text ++ rest)).length < Word.size) (start : d.field = .start) (means : Means version lines (before ++ (line.text ++ rest)) d) :
    ∃ acted, Acts limits version lines line (before ++ (line.text ++ rest)) acted ∧ acted.1.field = .start ∧
      Draft.scan (Draft.headByte hash limits (before ++ (line.text ++ rest))) d before.length (line.text ++ rest) =
        Draft.onward hash limits (before ++ (line.text ++ rest)) acted (before.length + line.text.length) rest := by
  have acts := lineActs hash limits (d := { d with
      field := .start
      mark := (before ++ line.front).length
      cursor := before.length + line.text.length
      name := ⟨before.length, line.name.length⟩
      value := ⟨(before ++ line.front).length, line.value.length⟩ })
    ⟨means.noted, means.keepAlive, means.contentLength⟩ (line.nameSliced before rest word)
    (line.valueSliced before rest word).1
  refine ⟨_, acts, ?_, Draft.scanLine line word start⟩
  rw [(Draft.lineMeaning hash limits _ _).frame]

theorem scanLines (limits : Limits) {more : List FieldText} {before rest : Bytes}
    (word : (before ++ (more.flatMap text ++ rest)).length < Word.size) (start : d.field = .start)
    (passes : ∀ line ∈ more, line.refusal limits = none)
    (means : Means version lines (before ++ (more.flatMap text ++ rest)) d) :
    ∃ e, e.field = .start ∧ Means version (lines ++ more) (before ++ (more.flatMap text ++ rest)) e ∧
      Draft.scan (Draft.headByte hash limits (before ++ (more.flatMap text ++ rest))) d before.length
          (more.flatMap text ++ rest) =
        Draft.scan (Draft.headByte hash limits (before ++ (more.flatMap text ++ rest))) e
          (before ++ more.flatMap text).length rest := by
  induction more generalizing before d lines with
  | nil => exact ⟨d, start, by simpa using means, by simp⟩
  | cons line more ih =>
    have buffer : before ++ ((line :: more).flatMap text ++ rest) = before ++ (line.text ++ (more.flatMap text ++ rest)) := by
      simp
    have moved : before ++ (line.text ++ (more.flatMap text ++ rest)) =
        (before ++ line.text) ++ (more.flatMap text ++ rest) := by
      simp
    rw [buffer] at word means ⊢
    obtain ⟨acted, acts, field, scanned⟩ := scanActing hash limits line word start means
    cases acts with
    | refused refused =>
      rw [passes line (by simp)] at refused
      contradiction
    | accepted _ means =>
      rw [moved] at word means
      obtain ⟨e, began, meant, later⟩ := ih word field (fun line inside => passes line (List.mem_cons_of_mem _ inside)) means
      rw [← moved] at meant later
      refine ⟨e, began, by simpa using meant, ?_⟩
      rw [List.length_append] at later
      rw [List.flatMap_cons, List.append_assoc, scanned, Draft.onward, later]
      simp

end FieldText
end StaticHttp
