import StaticHttp.Proofs.RequestLine
import StaticHttp.Proofs.Headers
/-! Reading that looks at its bounds. A difference below zero, an index or a stretch
that does not lie in the buffer, and a loop over header lines that has had all its
rounds, end it without a result, where the readers that run wrap, take nothing or
refuse. Within the bounds of a draft the two come to the same. -/
namespace StaticHttp

def less? (a b : Nat) : Option Nat := if b ≤ a then some (a - b) else none

theorem lessOrdered {a b : Nat} (ordered : b ≤ a) : less? a b = some (a - b) := if_pos ordered

namespace Byte

def digit? (b : UInt8) : Option Nat := less? b.toNat 0x30

theorem digitChecked {b : UInt8} (isDigit : Byte.isDigit b = true) : digit? b = some (b.toNat - 0x30) := by
  refine lessOrdered ?_
  simp only [Byte.isDigit, Bool.and_eq_true, decide_eq_true_eq] at isDigit
  exact isDigit.1

end Byte

namespace Version

def extend? (number : Nat) (b : UInt8) : Option (Except Fault Nat) := do
  if Byte.isDigit b then
    let digit ← Byte.digit? b
    some (if number * 10 + digit > 1 then .error .unsupportedVersion else .ok (number * 10 + digit))
  else some (.error .invalidVersion)

theorem extendChecked (number : Nat) (b : UInt8) : extend? number b = some (extend number b) := by
  unfold extend? extend
  by_cases isDigit : Byte.isDigit b = true
  · simp only [isDigit, Byte.digitChecked isDigit, if_true, Option.bind_eq_bind, Option.bind_some]
  · simp only [isDigit, Bool.false_eq_true, if_false]

end Version

namespace Decimal

def readFrom? (sum : Nat) : Bytes → Option (Option Nat)
  | [] => some (some sum)
  | b :: rest => do
      if Byte.isDigit b then
        let digit ← Byte.digit? b
        if sum * 10 + digit < Word.size then readFrom? (sum * 10 + digit) rest else some none
      else some none

theorem readFromChecked (sum : Nat) (numeral : Bytes) : readFrom? sum numeral = some (readFrom sum numeral) := by
  induction numeral generalizing sum with
  | nil => rfl
  | cons b rest ih =>
    unfold readFrom? readFrom
    by_cases isDigit : Byte.isDigit b = true
    · simp only [isDigit, Byte.digitChecked isDigit, if_true, Option.bind_eq_bind, Option.bind_some, ih, value,
        Bool.true_and]
      by_cases fits : sum * 10 + (b.toNat - 0x30) < Word.size
      · simp only [fits, decide_true, if_true]
      · simp only [fits, decide_false, if_false, Bool.false_eq_true]
    · simp only [isDigit, Bool.false_eq_true, if_false, Bool.false_and]

end Decimal

namespace Target

def extension? (buffer : Bytes) (path : Span) (named : Bytes) : Option Span :=
  match lastMark named with
  | some (i, _) => do
      let mark ← buffer[path.start + i]?
      some (if mark = Byte.dot then .range (path.start + i + 1) path.stop else .emptyAt path.stop)
  | none => some (.emptyAt path.stop)

def split? (buffer : Bytes) (whole : Span) : Option (Except Fault Target) := do
  let bytes ← whole.slice? buffer
  if bytes.head? = some Byte.slash then
    let path := pathOf whole bytes
    let named ← path.slice? buffer
    let extension ← extension? buffer path named
    some (.ok { whole := whole, path := path, query := queryOf whole bytes, extension := extension })
  else some (.error .invalidUrl)

theorem lastMarkByte {bytes : Bytes} {i : Nat} {isDot : Bool} (found : lastMark bytes = some (i, isDot)) :
    ∃ mark, bytes[i]? = some mark ∧ (mark = Byte.dot ↔ isDot = true) := by
  induction bytes generalizing i isDot with
  | nil => simp [lastMark] at found
  | cons b rest ih =>
    simp only [lastMark] at found
    split at found
    · rename_i j dot last
      cases Option.some.inj found
      simpa using ih last
    · split at found
      · rename_i dot
        cases Option.some.inj found
        exact ⟨b, rfl, by simp [dot]⟩
      · rename_i other
        split at found <;> cases found
        exact ⟨b, rfl, by simp [other]⟩

theorem extensionChecked {buffer named : Bytes} {path : Span} (sliced : path.slice? buffer = some named) :
    extension? buffer path named = some (extensionOf path named) := by
  unfold extension? extensionOf
  cases last : lastMark named with
  | none => rfl
  | some place =>
    obtain ⟨i, isDot⟩ := place
    obtain ⟨mark, there, dot⟩ := lastMarkByte last
    obtain ⟨_, _, rfl⟩ := Span.sliceSomeIff.mp sliced
    have short := lastMarkInside last
    have inBuffer : buffer[path.start + i]? = some mark := by
      rw [List.length_take] at short
      rw [List.getElem?_take_of_lt (by omega), List.getElem?_drop] at there
      exact there
    cases isDot with
    | true =>
      have isMark : mark = Byte.dot := dot.mpr rfl
      simp [inBuffer, isMark]
    | false =>
      have notMark : mark ≠ Byte.dot := fun same => Bool.false_ne_true (dot.mp same)
      simp [inBuffer, notMark]

theorem splitChecked {buffer : Bytes} {whole : Span} (word : buffer.length < Word.size)
    (inside : whole.reach ≤ buffer.length) : split? buffer whole = some (split buffer whole) := by
  have sliced := Span.sliceInside word inside
  unfold split? split
  generalize (buffer.drop whole.start).take whole.len = bytes at sliced
  rw [sliced]
  cases bytes with
  | nil => rfl
  | cons first rest =>
    have path := Span.sliceInside word (Nat.le_trans (reachPathOf sliced) inside)
    by_cases slash : first = Byte.slash
    · simp [slash] at path ⊢
      simp [path, extensionChecked path]
    · simp [slash]

end Target

namespace Draft
variable {α : Type}

def token? (d : Draft) (buffer : Bytes) (position : Nat) : Option Bytes := do
  let length ← less? position d.mark
  Span.slice? ⟨d.mark, length⟩ buffer

def methodByte? (buffer : Bytes) (d : Draft) (position : Nat) (b : UInt8) : Option (Verdict Unit) := do
  let token ← d.token? buffer position
  if Byte.isLetter b ∧ token.length < Method.longest then some (.next d)
  else if b = Byte.space then
    match Method.ofToken? token with
    | some method => some (.next { d with method := some method, line := .beforeTarget })
    | none => some (.refuse d .invalidMethod)
  else some (.refuse d .invalidMethod)

def targetByte? (buffer : Bytes) (d : Draft) (position : Nat) (b : UInt8) : Option (Verdict Unit) := do
  let length ← less? position d.mark
  if Byte.isBlank b then
    match ← Target.split? buffer ⟨d.mark, length⟩ with
    | .ok target => some (.next { d with target := target, line := .beforeVersion })
    | .error fault => some (.refuse d fault)
  else if Byte.isBreak b then some (.refuse d .invalidUrl)
  else some (.next d)

def majorByte? (d : Draft) (number : Nat) (b : UInt8) : Option (Verdict Unit) := do
  match ← Version.extend? number b with
  | .ok number => some (.next { d with version := { d.version with major := number }, line := .major })
  | .error fault => some (.refuse d fault)

def minorByte? (d : Draft) (number : Nat) (b : UInt8) : Option (Verdict Unit) := do
  match ← Version.extend? number b with
  | .ok number => some (.next { d with version := { d.version with minor := number }, line := .minor })
  | .error fault => some (.refuse d fault)

def lineByte? (buffer : Bytes) (d : Draft) (position : Nat) (b : UInt8) : Option (Verdict Unit) :=
  match d.line with
  | .method => methodByte? buffer d position b
  | .target => targetByte? buffer d position b
  | .majorFirst => majorByte? d 0 b
  | .major => if b = Byte.dot then some (.next { d with line := .minorFirst }) else majorByte? d d.version.major b
  | .minorFirst => minorByte? d 0 b
  | .minor => if b = Byte.cr then some (.next { d with line := .lineEnd }) else minorByte? d d.version.minor b
  | _ => some (lineByte buffer d position b)

def headerByte? (buffer : Bytes) (d : Draft) (position : Nat) (b : UInt8) : Option (Verdict HeaderLine) :=
  match d.field with
  | .name => do
      let token ← d.token? buffer position
      if b = Byte.colon then some (.next { d with name := ⟨d.mark, token.length⟩, field := .beforeValue })
      else if isNameByte b then some (.next d)
      else some (.refuse d .invalidHeader)
  | .value => do
      let token ← d.token? buffer position
      let ended := { d with value := ⟨d.mark, token.trimRight.length⟩ }
      if b = Byte.cr then some (.next { ended with field := .valueEnd })
      else if b = Byte.lf then some (.stop (ended.endLine position) .field)
      else some (.next d)
  | _ => some (headerByte buffer d position b)

def scan? (step : Draft → Nat → UInt8 → Option (Verdict α)) (d : Draft) (position : Nat) :
    Bytes → Option (Draft × Outcome α)
  | [] => some ({ d with cursor := position }, .more)
  | b :: rest => do
      match ← step d position b with
      | .next d => scan? step d (position + 1) rest
      | .stop d result => some (d, .found result)
      | .refuse d fault => some (d, .failed fault)

def resume? (step : Draft → Nat → UInt8 → Option (Verdict α)) (d : Draft) (buffer : Bytes) :
    Option (Draft × Outcome α) := do
  let _ ← less? buffer.length d.cursor
  scan? step d d.cursor (buffer.drop d.cursor)

def readRequestLine? (d : Draft) (buffer : Bytes) : Option (Draft × Outcome Unit) :=
  d.resume? (lineByte? buffer) buffer

def readHeaderLine? (d : Draft) (buffer : Bytes) : Option (Draft × Outcome HeaderLine) :=
  d.resume? (headerByte? buffer) buffer

def announcedLength? (limits : Limits) (value : Bytes) : Option (Except Fault Nat) := do
  match value with
  | [] => some (.error .invalidContentLength)
  | numeral =>
      match ← Decimal.readFrom? 0 numeral with
      | some length =>
          if length = 0 then some (.error .invalidContentLength)
          else if length > limits.bodyLimit then some (.error .bodyTooLarge)
          else some (.ok length)
      | none => some (.error .invalidContentLength)

def treat? (limits : Limits) (d : Draft) (treatment : Treatment) (value : Bytes) : Option (Draft × Option Fault) := do
  match treatment with
  | .contentLength =>
      match ← announcedLength? limits value with
      | .ok length => some ({ d with contentLength := length }, none)
      | .error fault => some (d, some fault)
  | treatment => some (treat limits d treatment value)

def applyLine? (hash : Bytes → Nat) (limits : Limits) (d : Draft) (buffer : Bytes) : Option (Draft × Option Fault) := do
  let name ← d.name.slice? buffer
  match Field.ofName? hash name with
  | some field =>
      let value ← d.value.slice? buffer
      treat? limits { d with fields := d.fields.set field d.value } field.treatment value
  | none => some (d, none)

def onLine? (hash : Bytes → Nat) (limits : Limits) (buffer : Bytes) (onward : Draft → Option (Draft × Outcome Unit)) :
    Draft × Outcome HeaderLine → Option (Draft × Outcome Unit)
  | (d, .more) => some (d, .more)
  | (d, .failed fault) => some (d, .failed fault)
  | (d, .found .blank) => some (d, .found ())
  | (d, .found .field) => do
      match ← d.applyLine? hash limits buffer with
      | (d, none) => onward d
      | (d, some fault) => some (d, .failed fault)

def headLines? (hash : Bytes → Nat) (limits : Limits) (buffer : Bytes) : Nat → Draft → Option (Draft × Outcome Unit)
  | 0, _ => none
  | lines + 1, d => do onLine? hash limits buffer (headLines? hash limits buffer lines) (← d.readHeaderLine? buffer)

variable {hash : Bytes → Nat} {limits : Limits} {buffer text bytes : Bytes} {d : Draft} {position : Nat}

theorem tokenChecked (word : buffer.length < Word.size) (mark : d.mark ≤ position) (inside : position ≤ buffer.length) :
    ∃ token, d.token? buffer position = some token ∧ (Span.range d.mark position).slice? buffer = some token ∧
      token.length = position - d.mark := by
  have sliced : (Span.range d.mark position).slice? buffer = some ((buffer.drop d.mark).take (position - d.mark)) :=
    Span.sliceInside word (Span.reachRange (Nat.le_trans mark inside) inside)
  refine ⟨_, ?_, sliced, ?_⟩
  · simp only [token?, lessOrdered mark, Option.bind_eq_bind, Option.bind_some]
    exact sliced
  · rw [List.length_take, List.length_drop]
    omega

theorem majorByteChecked (d : Draft) (number : Nat) (b : UInt8) : majorByte? d number b = some (majorByte d number b) := by
  simp only [majorByte?, majorByte, Version.extendChecked, Option.bind_eq_bind, Option.bind_some]
  cases Version.extend number b <;> rfl

theorem minorByteChecked (d : Draft) (number : Nat) (b : UInt8) : minorByte? d number b = some (minorByte d number b) := by
  simp only [minorByte?, minorByte, Version.extendChecked, Option.bind_eq_bind, Option.bind_some]
  cases Version.extend number b <;> rfl

theorem lineByteChecked (word : buffer.length < Word.size) (mark : d.mark ≤ position)
    (inside : position ≤ buffer.length) (b : UInt8) : lineByte? buffer d position b = some (lineByte buffer d position b) := by
  cases state : d.line with
  | method =>
    obtain ⟨token, here, sliced, length⟩ := tokenChecked word mark inside
    simp only [lineByte?, lineByte, state, methodByte?, methodByte, here, sliced, length, mark, true_and,
      Option.bind_eq_bind, Option.bind_some]
    split
    · rfl
    · split
      · cases Method.ofToken? token <;> rfl
      · rfl
  | target =>
    have split : Target.split? buffer (.range d.mark position) = some (Target.split buffer (.range d.mark position)) :=
      Target.splitChecked word (Span.reachRange (Nat.le_trans mark inside) inside)
    simp only [Span.range] at split
    simp only [lineByte?, lineByte, state, targetByte?, targetByte, lessOrdered mark, Span.range, split,
      Option.bind_eq_bind, Option.bind_some]
    split
    · cases Target.split buffer ⟨d.mark, position - d.mark⟩ <;> rfl
    · split <;> rfl
  | majorFirst | minorFirst => simp only [lineByte?, lineByte, state, majorByteChecked, minorByteChecked]
  | major | minor =>
    simp only [lineByte?, lineByte, state, majorByteChecked, minorByteChecked]
    split <;> rfl
  | start | beforeTarget | beforeVersion | protocol | lineEnd | finished => simp only [lineByte?, state]

theorem headerByteChecked (word : buffer.length < Word.size) (mark : d.mark ≤ position)
    (inside : position ≤ buffer.length) (b : UInt8) : headerByte? buffer d position b = some (headerByte buffer d position b) := by
  obtain ⟨token, here, sliced, length⟩ := tokenChecked word mark inside
  cases state : d.field with
  | name =>
    simp only [headerByte?, headerByte, state, here, length, Span.range, Option.bind_eq_bind, Option.bind_some]
    repeat' split
    all_goals rfl
  | value =>
    have ended : endValue buffer d position = { d with value := ⟨d.mark, token.trimRight.length⟩ } := by
      simp only [endValue, Span.trimRight, sliced]
      rfl
    simp only [headerByte?, headerByte, state, here, ended, Option.bind_eq_bind, Option.bind_some]
    repeat' split
    all_goals rfl
  | start | beforeValue | valueEnd | blankEnd => simp only [headerByte?, state]

theorem announcedChecked (limits : Limits) (value : Bytes) :
    announcedLength? limits value = some (announcedLength limits value) := by
  cases value with
  | nil => rfl
  | cons b rest =>
    simp only [announcedLength?, announcedLength, Decimal.read?, Decimal.readFromChecked, Option.bind_eq_bind,
      Option.bind_some]
    cases Decimal.readFrom 0 (b :: rest) with
    | none => rfl
    | some length =>
      simp only
      repeat' split
      all_goals rfl

theorem treatChecked (limits : Limits) (d : Draft) (treatment : Treatment) (value : Bytes) :
    treat? limits d treatment value = some (treat limits d treatment value) := by
  cases treatment with
  | contentLength =>
    simp only [treat?, treat, announcedChecked, Option.bind_eq_bind, Option.bind_some]
    cases announcedLength limits value <;> rfl
  | none | connection | transferEncoding => rfl

theorem applyLineChecked (word : buffer.length < Word.size) (within : d.Within buffer.length) :
    d.applyLine? hash limits buffer = some (d.applyLine hash limits buffer) := by
  have name := Span.sliceInside word within.name
  have value := Span.sliceInside word within.value
  simp only [applyLine?, applyLine, accept, name, value, treatChecked, Option.bind_eq_bind, Option.bind_some]
  cases Field.ofName? hash ((buffer.drop d.name.start).take d.name.len) <;> rfl

theorem scanChecked {step : Bytes → Draft → Nat → UInt8 → Verdict α} {known : Draft → Bytes → Prop}
    (checked : Bytes → Draft → Nat → UInt8 → Option (Verdict α)) (steady : Steady step known)
    (passes : ∀ {d : Draft} {text rest : Bytes} {b : UInt8}, known d text → (text ++ b :: rest).length < Word.size →
      checked (text ++ b :: rest) d text.length b = some (step (text ++ b :: rest) d text.length b))
    (origin : known d text) (word : (text ++ bytes).length < Word.size) :
    scan? (checked (text ++ bytes)) d text.length bytes = some (scan (step (text ++ bytes)) d text.length bytes) := by
  -- What is known of the draft goes along with the text that has been read.
  induction bytes generalizing d text with
  | nil => rfl
  | cons b rest ih =>
    have stable := steady.stable b rest origin
    have joined : text ++ [b] ++ rest = text ++ b :: rest := by simp
    rw [joined] at stable
    simp only [scan?, scan, passes origin word, Option.bind_eq_bind, Option.bind_some]
    cases judged : step (text ++ b :: rest) d text.length b with
    | next e =>
      have next := ih (steady.next origin (stable ▸ judged)) (joined ▸ word)
      rw [joined] at next
      simpa using next
    | stop e result => rfl
    | refuse e fault => rfl

theorem resumeChecked (inside : d.cursor ≤ buffer.length) (step : Draft → Nat → UInt8 → Option (Verdict α)) :
    d.resume? step buffer = scan? step d d.cursor (buffer.drop d.cursor) := by
  simp only [resume?, lessOrdered inside, Option.bind_eq_bind, Option.bind_some]

theorem readLineChecked (word : buffer.length < Word.size) (inside : d.cursor ≤ buffer.length)
    (known : InLine d (buffer.take d.cursor)) : d.readRequestLine? buffer = some (d.readRequestLine buffer) := by
  have whole : buffer.take d.cursor ++ buffer.drop d.cursor = buffer := List.take_append_drop _ _
  have length : (buffer.take d.cursor).length = d.cursor := List.length_take_of_le inside
  have scanned := scanChecked lineByte? lineSteady (fun known word => lineByteChecked word known.within.mark (by simp) _)
    known (whole.symm ▸ word)
  rw [whole, length] at scanned
  rw [readRequestLine?, resumeChecked inside, scanned]
  rfl

theorem onLineActs {e : Draft} {onward : Draft → Option (Draft × Outcome Unit)}
    (acts : d.applyLine? hash limits buffer = some (e, none)) :
    onLine? hash limits buffer onward (d, .found .field) = onward e := by
  simp only [onLine?, acts, Option.bind_eq_bind, Option.bind_some]

theorem onLineRefused {e : Draft} {fault : Fault} {onward : Draft → Option (Draft × Outcome Unit)}
    (acts : d.applyLine? hash limits buffer = some (e, some fault)) :
    onLine? hash limits buffer onward (d, .found .field) = some (e, .failed fault) := by
  simp only [onLine?, acts, Option.bind_eq_bind, Option.bind_some]

theorem headLinesChecked {lines : Nat} (inHead : InHead d text) (word : (text ++ bytes).length < Word.size)
    (enough : bytes.length ≤ lines) :
    (scan? (headerByte? (text ++ bytes)) d text.length bytes).bind
        (onLine? hash limits (text ++ bytes) (headLines? hash limits (text ++ bytes) lines)) =
      some (scan (headByte hash limits (text ++ bytes)) d text.length bytes) := by
  -- A round is left and the next one begun at the end of each line, so the induction is
  -- on the bytes and goes through the ends of lines.
  induction bytes generalizing d text lines with
  | nil => rfl
  | cons b rest ih =>
    have joined : text ++ [b] ++ rest = text ++ b :: rest := by simp
    have stable := headStable inHead hash limits b rest
    have same : headerByte (text ++ [b] ++ rest) d text.length b = headerByte (text ++ [b]) d text.length b :=
      headerStable (Nat.le_trans inHead.within.mark (by simp)) (by simp) rest b
    have passed := headerByteChecked word inHead.within.mark (by simp) b
    have effect := headerEffect (text ++ [b]) d text.length b
    have step := headStep hash limits (text ++ b :: rest) d text.length b
    have acting {e : Draft} (judged : headerByte (text ++ b :: rest) d text.length b = .stop e .field) :
        e.applyLine? hash limits (text ++ b :: rest) = some (e.applyLine hash limits (text ++ b :: rest)) := by
      rw [← same, joined, judged] at effect
      exact applyLineChecked word ((effect.within inHead.within).mono (by simp))
    rw [joined] at stable same
    simp only [scan?, scan, passed, Option.bind_eq_bind, Option.bind_some]
    generalize verdict : headByte hash limits (text ++ b :: rest) d text.length b = v at step
    cases step with
    | inside judged =>
      have next := ih (inHead.next (stable ▸ verdict)) (joined ▸ word) (Nat.le_of_succ_le enough)
      rw [joined] at next
      rw [judged]
      simpa using next
    | @line e f judged acts =>
      obtain ⟨round, rfl⟩ : ∃ round, lines = round + 1 := ⟨lines - 1, by simp at enough; omega⟩
      have next := ih (inHead.next (stable ▸ verdict)) (joined ▸ word) (Nat.le_of_succ_le_succ enough)
      rw [joined] at next
      have meaning : LineMeaning e f := by simpa only [acts] using lineMeaning hash limits e (text ++ b :: rest)
      obtain ⟨_, _, atEnd, _⟩ := headerStop inHead.stands (same ▸ judged)
      have cursor : f.cursor = (text ++ [b]).length := by rw [meaning.frame, atEnd]
      have behind : (text ++ b :: rest).drop (text ++ [b]).length = rest := by
        rw [← joined, List.drop_left]
      have further : f.readHeaderLine? (text ++ b :: rest) =
          scan? (headerByte? (text ++ b :: rest)) f (text ++ [b]).length rest := by
        rw [readHeaderLine?, resumeChecked (by simp [cursor]), cursor, behind]
      rw [judged]
      simp only [Option.bind_some, onLineActs ((acting judged).trans (congrArg some acts)), headLines?, further]
      simpa using next
    | blank judged =>
      rw [judged]
      rfl
    | refusedLine judged acts =>
      rw [judged]
      simp only [Option.bind_some, onLineRefused ((acting judged).trans (congrArg some acts))]
    | refused judged =>
      rw [judged]
      rfl

theorem readHeadersChecked {lines : Nat} (word : buffer.length < Word.size) (inside : d.cursor ≤ buffer.length)
    (known : InHead d (buffer.take d.cursor)) (enough : buffer.length < lines) :
    headLines? hash limits buffer lines d = some (d.readHeaders hash limits buffer) := by
  obtain ⟨round, rfl⟩ : ∃ round, lines = round + 1 := ⟨lines - 1, by omega⟩
  have whole : buffer.take d.cursor ++ buffer.drop d.cursor = buffer := List.take_append_drop _ _
  have length : (buffer.take d.cursor).length = d.cursor := List.length_take_of_le inside
  have rounds : (buffer.drop d.cursor).length ≤ round := by simp; omega
  have scanned : _ = some (scan (headByte hash limits _) d _ _) := headLinesChecked known (whole.symm ▸ word) rounds
  rw [whole, length] at scanned
  rw [headLines?, readHeaderLine?, resumeChecked inside]
  exact scanned

end Draft
end StaticHttp
