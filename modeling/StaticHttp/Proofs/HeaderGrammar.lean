import StaticHttp.Proofs.HeaderText
/-! The grammar of header lines. A line is taken at its LF, and what is read before
that is at every byte the beginning of a line: so the reader waits only where a line
can still come of it, and what it refuses no further byte would have mended. -/
namespace StaticHttp

namespace Bytes

def blankTail (bytes : Bytes) : Bytes := (bytes.reverse.takeWhile Byte.isBlank).reverse

theorem trimSplits (bytes : Bytes) : bytes.trimRight ++ bytes.blankTail = bytes := by
  rw [trimRight, blankTail, ← List.reverse_append, List.takeWhile_append_dropWhile, List.reverse_reverse]

theorem tailBlank (bytes : Bytes) : ∀ b ∈ bytes.blankTail, Byte.isBlank b = true := by
  intro b inside
  exact List.all_eq_true.mp List.all_takeWhile b (List.mem_reverse.mp inside)

theorem trimEnds (bytes : Bytes) : ∀ b, bytes.trimRight.getLast? = some b → Byte.isBlank b = false := by
  intro b last
  rw [trimRight, List.getLast?_reverse] at last
  have solid := List.head?_dropWhile_not Byte.isBlank bytes.reverse
  rw [last] at solid
  simpa using solid

theorem trimStarts {first : UInt8} (solid : Byte.isBlank first = false) (others : Bytes) :
    ∃ rest, trimRight (first :: others) = first :: rest := by
  have splits := trimSplits (first :: others)
  cases trimmed : trimRight (first :: others) with
  | nil =>
    rw [trimmed, List.nil_append] at splits
    have blank := tailBlank (first :: others) first (by rw [splits]; simp)
    exact absurd (blank.symm.trans solid) (by simp)
  | cons b rest =>
    rw [trimmed, List.cons_append, List.cons.injEq] at splits
    exact ⟨rest, by rw [splits.1]⟩

end Bytes

structure FieldFront where
  name : Bytes
  gap : Bytes
  nameSome : name ≠ []
  nameBytes : ∀ b ∈ name, Draft.isNameByte b = true
  gapBlank : ∀ b ∈ gap, Byte.isBlank b = true

structure FieldStart extends FieldFront where
  first : UInt8
  others : Bytes
  firstSolid : Byte.isBlank first = false
  unbroken : ∀ b ∈ first :: others, Byte.isBreak b = false

def FieldFront.text (front : FieldFront) : Bytes := front.name ++ Byte.colon :: front.gap

def FieldStart.text (start : FieldStart) : Bytes := start.toFieldFront.text ++ start.first :: start.others

namespace FieldText

def ofStart (start : FieldStart) {ending : Bytes} (shape : ending = [Byte.lf] ∨ ending = [Byte.cr, Byte.lf]) :
    FieldText := { start.toFieldFront with
  value := Bytes.trimRight (start.first :: start.others)
  trail := Bytes.blankTail (start.first :: start.others)
  ending := ending
  valueSome := by
    obtain ⟨rest, starts⟩ := Bytes.trimStarts start.firstSolid start.others
    rw [starts]
    exact List.cons_ne_nil _ _
  valueUnbroken b inside := start.unbroken b (by
    rw [← Bytes.trimSplits (start.first :: start.others)]
    exact List.mem_append_left _ inside)
  valueStarts b first := by
    obtain ⟨rest, starts⟩ := Bytes.trimStarts start.firstSolid start.others
    rw [starts, List.head?_cons, Option.some.injEq] at first
    exact first ▸ start.firstSolid
  valueEnds := Bytes.trimEnds _
  trailBlank := Bytes.tailBlank _
  endingBreak := shape }

theorem ofStartText (start : FieldStart) {ending : Bytes} (shape : ending = [Byte.lf] ∨ ending = [Byte.cr, Byte.lf]) :
    (ofStart start shape).text = start.text ++ ending := by
  have splits := Bytes.trimSplits (start.first :: start.others)
  simp only [text, ofStart, FieldStart.text, FieldFront.text, List.append_assoc, List.cons_append]
  rw [← List.append_assoc (Bytes.trimRight _), splits, List.cons_append]

end FieldText

namespace HeaderLine

def Spells : HeaderLine → Bytes → Prop
  | .field, text => ∃ line : FieldText, line.text = text
  | .blank, text => text = [Byte.lf] ∨ text = [Byte.cr, Byte.lf]

def Begins (kind : HeaderLine) (text : Bytes) : Prop := ∃ whole, kind.Spells whole ∧ whole <+: text

theorem startSpells (start : FieldStart) {ending : Bytes} (shape : ending = [Byte.lf] ∨ ending = [Byte.cr, Byte.lf]) :
    HeaderLine.field.Spells (start.text ++ ending) :=
  ⟨.ofStart start shape, FieldText.ofStartText start shape⟩

end HeaderLine

namespace Draft
variable {buffer text seen : Bytes} {d e : Draft} {position : Nat} {b : UInt8}

inductive FieldRead : FieldState → Bytes → Prop where
  | start : FieldRead .start []
  | name {name : Bytes} (some : name ≠ []) (named : ∀ b ∈ name, isNameByte b = true) : FieldRead .name name
  | beforeValue (front : FieldFront) : FieldRead .beforeValue front.text
  | value (start : FieldStart) : FieldRead .value start.text
  | valueEnd (start : FieldStart) : FieldRead .valueEnd (start.text ++ [Byte.cr])
  | blankEnd : FieldRead .blankEnd [Byte.cr]

theorem FieldRead.next (read : FieldRead d.field seen) (next : headerByte buffer d position b = .next e) :
    FieldRead e.field (seen ++ [b]) := by
  cases d
  simp only at read
  cases read with
  | start =>
    simp only [headerByte] at next
    split at next
    · rename_i cr
      cases next
      rw [cr]
      exact .blankEnd
    · split at next
      · contradiction
      · split at next
        · rename_i named
          cases next
          exact .name (List.cons_ne_nil _ _) (List.forall_mem_singleton.mpr named)
        · contradiction
  | name some named =>
    simp only [headerByte] at next
    split at next
    · rename_i colon
      cases next
      rw [colon]
      exact .beforeValue ⟨seen, [], some, named, Byte.blankNone⟩
    · split at next
      · rename_i further
        cases next
        exact .name (by simp) (List.forall_mem_append.mpr ⟨named, List.forall_mem_singleton.mpr further⟩)
      · contradiction
  | beforeValue front =>
    simp only [headerByte] at next
    split at next
    · rename_i blank
      cases next
      have longer : front.text ++ [b] = FieldFront.text { front with
          gap := front.gap ++ [b]
          gapBlank := List.forall_mem_append.mpr ⟨front.gapBlank, List.forall_mem_singleton.mpr blank⟩ } := by
        simp [FieldFront.text]
      rw [longer]
      exact .beforeValue _
    · rename_i solid
      split at next
      · contradiction
      · rename_i unbroken
        cases next
        exact .value ⟨front, b, [], by simpa using solid, List.forall_mem_singleton.mpr (by simpa using unbroken)⟩
  | value start =>
    simp only [headerByte] at next
    split at next
    · rename_i cr
      cases next
      rw [cr]
      exact .valueEnd start
    · rename_i cr
      split at next
      · contradiction
      · rename_i lf
        cases next
        have plain : Byte.isBreak b = false := by
          simp [Byte.isBreak, cr, lf]
        have longer : start.text ++ [b] = FieldStart.text { start with
            others := start.others ++ [b]
            unbroken := List.forall_mem_append.mpr ⟨start.unbroken, List.forall_mem_singleton.mpr plain⟩ } := by
          simp [FieldStart.text]
        rw [longer]
        exact .value _
  | valueEnd start | blankEnd =>
    simp only [headerByte] at next
    split at next
    all_goals contradiction

theorem FieldRead.stop {kind : HeaderLine} (read : FieldRead d.field seen)
    (stopped : headerByte buffer d position b = .stop e kind) : kind.Spells (seen ++ [b]) := by
  cases d
  simp only at read
  cases read with
  | start =>
    simp only [headerByte] at stopped
    split at stopped
    · contradiction
    · split at stopped
      · rename_i lf
        cases stopped
        exact .inl (by rw [lf]; rfl)
      · split at stopped
        all_goals contradiction
  | name | beforeValue =>
    simp only [headerByte] at stopped
    repeat' split at stopped
    all_goals contradiction
  | value start =>
    simp only [headerByte] at stopped
    split at stopped
    · contradiction
    · split at stopped
      · rename_i lf
        cases stopped
        rw [lf]
        exact HeaderLine.startSpells start (.inl rfl)
      · contradiction
  | valueEnd start =>
    simp only [headerByte] at stopped
    split at stopped
    · rename_i lf
      cases stopped
      rw [lf, List.append_assoc]
      exact HeaderLine.startSpells start (.inr rfl)
    · contradiction
  | blankEnd =>
    simp only [headerByte] at stopped
    split at stopped
    · rename_i lf
      cases stopped
      exact .inr (by rw [lf]; rfl)
    · contradiction

theorem FieldRead.completes {field : FieldState} (read : FieldRead field seen) :
    ∃ (kind : HeaderLine) (rest : Bytes), kind.Spells (seen ++ rest) := by
  have lineFeed : [Byte.lf] = [Byte.lf] ∨ [Byte.lf] = [Byte.cr, Byte.lf] := .inl rfl
  have solid : Byte.isBlank Byte.dash = false ∧ ∀ b ∈ [Byte.dash], Byte.isBreak b = false :=
    ⟨rfl, List.forall_mem_singleton.mpr rfl⟩
  cases read with
  | start => exact ⟨.blank, [Byte.lf], lineFeed⟩
  | name some named =>
    have spelled := HeaderLine.startSpells ⟨⟨seen, [], some, named, Byte.blankNone⟩, Byte.dash, [], solid.1, solid.2⟩ lineFeed
    exact ⟨.field, [Byte.colon, Byte.dash, Byte.lf], by simpa [FieldStart.text, FieldFront.text] using spelled⟩
  | beforeValue front =>
    have spelled := HeaderLine.startSpells ⟨front, Byte.dash, [], solid.1, solid.2⟩ lineFeed
    exact ⟨.field, [Byte.dash, Byte.lf], by simpa [FieldStart.text] using spelled⟩
  | value start => exact ⟨.field, [Byte.lf], HeaderLine.startSpells start lineFeed⟩
  | valueEnd start =>
    refine ⟨.field, [Byte.lf], ?_⟩
    rw [List.append_assoc]
    exact HeaderLine.startSpells start (.inr rfl)
  | blankEnd => exact ⟨.blank, [Byte.lf], .inr rfl⟩

def InField (d : Draft) (text : Bytes) : Prop := d.field = .name ∨ d.field = .value → d.mark ≤ text.length

theorem InField.stable (inField : InField d text) (b : UInt8) (rest : Bytes) :
    headerByte (text ++ [b] ++ rest) d text.length b = headerByte (text ++ [b]) d text.length b := by
  by_cases token : d.field = .name ∨ d.field = .value
  · have mark : d.mark ≤ (text ++ [b]).length := Nat.le_trans (inField token) (by simp)
    exact headerStable mark (by simp) rest b
  · cases state : d.field with
    | name => exact absurd (.inl state) token
    | value => exact absurd (.inr state) token
    | start | beforeValue | valueEnd | blankEnd => simp only [headerByte, state]

theorem InField.next (inField : InField d text) (next : headerByte (text ++ [b]) d text.length b = .next e) :
    InField e (text ++ [b]) := by
  intro token
  have effect := headerEffect (text ++ [b]) d text.length b
  rw [next] at effect
  -- A byte that opens a token marks it; no other byte leads to one.
  have begun : d.field = .name ∨ d.field = .value ∨ e.mark = text.length := by
    cases state : d.field with
    | name | value => simp
    | start =>
      simp only [headerByte, state] at next
      repeat' split at next
      all_goals cases next
      · simp at token
      · exact .inr (.inr rfl)
    | beforeValue =>
      simp only [headerByte, state] at next
      repeat' split at next
      all_goals cases next
      · simp [state] at token
      · exact .inr (.inr rfl)
    | valueEnd | blankEnd =>
      simp only [headerByte, state] at next
      split at next
      all_goals contradiction
  rw [List.length_append]
  rcases effect.mark with kept | here
  · rcases begun with name | value | here
    · exact kept ▸ Nat.le_add_right_of_le (inField (.inl name))
    · exact kept ▸ Nat.le_add_right_of_le (inField (.inr value))
    · exact here ▸ Nat.le_add_right _ _
  · exact here ▸ Nat.le_add_right _ _

theorem fieldSteady : Steady headerByte InField where
  alike alike inField := by
    rw [alike.eqParked]
    exact inField
  blind b alike _ := by
    rw [alike.eqParked, headerParked]
    exact Verdict.alikeParked _ _
  stable b rest inField := inField.stable b rest
  next := InField.next

def Begun (before : Bytes) (d : Draft) (text : Bytes) : Prop := ∃ seen, text = before ++ seen ∧ FieldRead d.field seen

theorem begunSteady (before : Bytes) : Steady headerByte fun d text => InField d text ∧ Begun before d text :=
  fieldSteady.sharpen (fun alike begun => by rw [alike.eqParked]; exact begun)
    fun _ begun next => by
      obtain ⟨seen, rfl, read⟩ := begun
      exact ⟨_, List.append_assoc _ _ _, read.next next⟩

theorem freshBegun (start : d.field = .start) (before : Bytes) : InField d before ∧ Begun before d before :=
  ⟨fun token => by simp [start] at token, [], by simp, by rw [start]; exact .start⟩

theorem readLine (line : FieldText) (start : d.field = .start) (front : line.text <+: buffer.drop d.cursor) :
    d.readHeaderLine buffer = (line.behind buffer d.cursor d, .found .field) := by
  obtain ⟨rest, parts⟩ := front
  obtain ⟨f, last, _, scanned, stopped⟩ := scanWhole (headerGoesOn buffer) line start d.cursor rest
  rw [readHeaderLine, resume, ← parts, scanned, scanStop stopped]

theorem behindHere (line : FieldText) (inside : d.cursor ≤ buffer.length) (front : line.text <+: buffer.drop d.cursor)
    (word : buffer.length < Word.size) :
    line.behind buffer d.cursor d = { d with
      field := .start
      mark := d.cursor + line.front.length
      cursor := d.cursor + line.text.length
      name := ⟨d.cursor, line.name.length⟩
      value := ⟨d.cursor + line.front.length, line.value.length⟩ } := by
  obtain ⟨rest, parts⟩ := front
  have opened : buffer.take d.cursor ++ (line.text ++ rest) = buffer := by
    rw [parts, List.take_append_drop]
  have before : (buffer.take d.cursor).length = d.cursor := List.length_take_of_le inside
  have value := line.behindValue (buffer.take d.cursor) rest (by rw [opened]; exact word) d
  rw [opened, before] at value
  rw [← value]
  rfl

theorem readBlank {blank : Bytes} (spelled : HeaderLine.blank.Spells blank) (start : d.field = .start)
    (front : blank <+: buffer.drop d.cursor) :
    d.readHeaderLine buffer = ({ d with cursor := d.cursor + blank.length }, .found .blank) := by
  obtain ⟨rest, parts⟩ := front
  obtain ⟨f, last, scanned, stopped⟩ := scanBlank (headerGoesOn buffer) spelled start d.cursor rest
  rw [readHeaderLine, resume, ← parts, scanned, scanStop stopped, ← start]

theorem readKind {kind : HeaderLine} (start : d.field = .start) (begins : kind.Begins (buffer.drop d.cursor)) :
    (d.readHeaderLine buffer).2 = .found kind := by
  obtain ⟨whole, spelled, front⟩ := begins
  cases kind with
  | field =>
    obtain ⟨line, rfl⟩ := spelled
    rw [readLine line start front]
  | blank => rw [readBlank spelled start front]

inductive LineEnds (buffer text : Bytes) : Draft × Outcome HeaderLine → Prop where
  | found (e : Draft) {kind : HeaderLine} (begins : kind.Begins text) : LineEnds buffer text (e, .found kind)
  | more {e : Draft} (behind : e.cursor = buffer.length) {kind : HeaderLine} {rest : Bytes}
      (completes : kind.Begins (text ++ rest)) : LineEnds buffer text (e, .more)
  | failed (e : Draft) (never : ∀ (kind : HeaderLine) (rest : Bytes), ¬ kind.Begins (text ++ rest)) :
      LineEnds buffer text (e, .failed .invalidHeader)

theorem lineEnds (start : d.field = .start) (inside : d.cursor ≤ buffer.length) :
    LineEnds buffer (buffer.drop d.cursor) (d.readHeaderLine buffer) := by
  have steady := begunSteady (buffer.take d.cursor)
  have origin := freshBegun start (buffer.take d.cursor)
  have opened : buffer.take d.cursor ++ buffer.drop d.cursor = buffer := List.take_append_drop _ _
  cases read : d.readHeaderLine buffer with
  | mk e outcome =>
    cases outcome with
    | found kind =>
      obtain ⟨f, text, b, after, parts, ⟨_, seen, rfl, begun⟩, stopped⟩ := resumeFound steady inside origin read
      rw [List.append_assoc] at parts
      have text : buffer.drop d.cursor = seen ++ b :: after := List.append_cancel_left (opened.trans parts)
      exact .found e ⟨_, begun.stop stopped, after, by rw [text]; simp⟩
    | more =>
      obtain ⟨behind, ⟨_, seen, parts, begun⟩, _⟩ := resumeMore steady inside origin read
      obtain ⟨kind, rest, spelled⟩ := begun.completes
      have text : buffer.drop d.cursor = seen := List.append_cancel_left (opened.trans parts)
      have completes : kind.Begins (buffer.drop d.cursor ++ rest) := ⟨_, spelled, text ▸ List.prefix_refl _⟩
      exact .more behind completes
    | failed fault =>
      obtain ⟨_, _, _, _, refused⟩ := resumeFailed steady inside origin read
      obtain rfl := (headerRefuse refused).2
      -- The refusal stands for every longer text, of which a line at its front would be taken.
      refine .failed e fun kind rest begins => ?_
      have ended : (d.resume (headerByte buffer) buffer).2 ≠ .more := by
        rw [show d.resume (headerByte buffer) buffer = _ from read]
        simp
      have later : d.readHeaderLine (buffer ++ rest) = (e, .failed .invalidHeader) :=
        (resumeEnded steady inside origin ended rest).trans read
      rw [← List.drop_append_of_le_length inside] at begins
      have found := readKind start begins
      rw [later] at found
      contradiction

/-- From the start of a line the reader takes exactly the lines of the grammar and the blank
ones, with the parts that they have. It waits at the end of a text that some continuation makes
one of them, and refuses any other. -/
theorem headerLineGrammar {d : Draft} {buffer : Bytes} (start : d.field = .start) (inside : d.cursor ≤ buffer.length) :
    let read := d.readHeaderLine buffer
    let text := buffer.drop d.cursor
    (∀ kind, read.2 = .found kind ↔ kind.Begins text) ∧
      (∀ line : FieldText, line.text <+: text → buffer.length < Word.size →
        read.1 = { d with
          mark := d.cursor + line.front.length
          cursor := d.cursor + line.text.length
          name := ⟨d.cursor, line.name.length⟩
          value := ⟨d.cursor + line.front.length, line.value.length⟩ }) ∧
      (∀ blank, HeaderLine.blank.Spells blank → blank <+: text → read.1 = { d with cursor := d.cursor + blank.length }) ∧
      (read.2 = .more ↔ (∀ kind : HeaderLine, ¬ kind.Begins text) ∧
        ∃ (kind : HeaderLine) (rest : Bytes), kind.Begins (text ++ rest)) ∧
      (read.2 = .more → read.1.cursor = buffer.length) ∧
      (read.2 = .failed .invalidHeader ↔ ∀ (kind : HeaderLine) (rest : Bytes), ¬ kind.Begins (text ++ rest)) := by
  intro read text
  have ends : LineEnds buffer text read := lineEnds start inside
  have known {kind : HeaderLine} (begins : kind.Begins text) : read.2 = .found kind := readKind start begins
  have lines (line : FieldText) (front : line.text <+: text) (word : buffer.length < Word.size) :
      read.1 = { d with
        mark := d.cursor + line.front.length
        cursor := d.cursor + line.text.length
        name := ⟨d.cursor, line.name.length⟩
        value := ⟨d.cursor + line.front.length, line.value.length⟩ } := by
    rw [show read = _ from readLine line start front, behindHere line inside front word, ← start]
  have blanks (blank : Bytes) (spelled : HeaderLine.blank.Spells blank) (front : blank <+: text) :
      read.1 = { d with cursor := d.cursor + blank.length } := by
    rw [show read = _ from readBlank spelled start front]
  clear_value read text
  refine ⟨fun kind => ⟨fun found => ?_, known⟩, lines, blanks, ⟨fun more => ?_, ?_⟩, fun more => ?_,
    fun failed => ?_, fun never => ?_⟩
  · cases ends with
    | found e begins =>
      cases found
      exact begins
    | more | failed => contradiction
  · cases ends with
    | more behind completes => exact ⟨fun kind begins => absurd (known begins) (by simp), _, _, completes⟩
    | found | failed => contradiction
  · rintro ⟨untaken, kind, rest, begins⟩
    cases ends with
    | more => rfl
    | found e taken => exact absurd taken (untaken _)
    | failed e never => exact absurd begins (never kind rest)
  · cases ends with
    | more behind => exact behind
    | found | failed => contradiction
  · cases ends with
    | failed e never => exact never
    | found | more => contradiction
  · cases ends with
    | failed => rfl
    | found e begins => exact absurd (by simpa using begins) (never _ [])
    | more behind completes => exact absurd completes (never _ _)

theorem headerLineGrammarOfTrail :
    let d : Draft := { line := .finished, cursor := 3 }
    let line : FieldText := { FieldText.plain (ascii "Host") (ascii "a:1") rfl with
      trail := [Byte.tab, Byte.space], trailBlank := List.forall_mem_cons.mpr ⟨rfl, Byte.blankSpace⟩, ending := [Byte.lf], endingBreak := .inl rfl }
    let buffer := ascii "..\nHost: a:1\t \nAge: 3"
    let other := ascii "..\nHost: a:1\t \r"
    let broken := ascii "..\nHost: a:1\t \r\r\n"
    line.text <+: buffer.drop 3 ∧
      d.readHeaderLine buffer =
        ({ d with mark := 9, cursor := 15, name := ⟨3, 4⟩, value := ⟨9, 3⟩ }, .found .field) ∧
      (d.readHeaderLine other).1.cursor = other.length ∧
      (∃ (kind : HeaderLine) (rest : Bytes), kind.Begins (other.drop 3 ++ rest)) ∧
      ∀ (kind : HeaderLine) (rest : Bytes), ¬ kind.Begins (broken.drop 3 ++ rest) := by
  intro d line buffer other broken
  have within : d.cursor ≤ buffer.length ∧ d.cursor ≤ other.length ∧ d.cursor ≤ broken.length := by decide +kernel
  have front : line.text <+: buffer.drop 3 := ⟨ascii "Age: 3", by decide +kernel⟩
  have waits : (d.readHeaderLine other).2 = .more := by decide +kernel
  have refused : (d.readHeaderLine broken).2 = .failed .invalidHeader := by decide +kernel
  obtain ⟨kinds, parts, _⟩ := headerLineGrammar (d := d) rfl within.1
  obtain ⟨_, _, _, viable, behind, _⟩ := headerLineGrammar (d := d) rfl within.2.1
  obtain ⟨_, _, _, _, _, never⟩ := headerLineGrammar (d := d) rfl within.2.2
  have taken := parts line front (by decide +kernel)
  exact ⟨front, Prod.ext (taken.trans (by decide +kernel)) ((kinds .field).mpr ⟨_, ⟨line, rfl⟩, front⟩),
    behind waits, (viable.mp waits).2, never.mp refused⟩

end Draft
end StaticHttp
