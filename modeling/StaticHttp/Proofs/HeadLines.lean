import StaticHttp.Proofs.Delimited
import StaticHttp.Proofs.HeaderGrammar
import StaticHttp.Proofs.Lifetimes
/-! The heads a server writes, read by its own header reader. Each field of a head is a line
of the grammar with one blank before the value, so the reader finds the fields in their order
and the blank line behind the last of them. -/
namespace StaticHttp

namespace Bytes
variable {front rest bytes : Bytes}

def solidStart (bytes : Bytes) : Bool := bytes.head?.any fun b => !Byte.isBlank b

def solidEnd (bytes : Bytes) : Bool := bytes.getLast?.any fun b => !Byte.isBlank b

def fair (value : Bytes) : Bool := unbroken value && solidStart value && solidEnd value

theorem solidStartIff : solidStart bytes = true ↔ ∃ b, bytes.head? = some b ∧ Byte.isBlank b = false := by
  simp only [solidStart, Option.any_eq_true, Bool.not_eq_true']

theorem solidEndIff : solidEnd bytes = true ↔ ∃ b, bytes.getLast? = some b ∧ Byte.isBlank b = false := by
  simp only [solidEnd, Option.any_eq_true, Bool.not_eq_true']

theorem startSolid (starts : solidStart bytes = true) :
    bytes ≠ [] ∧ ∀ b, bytes.head? = some b → Byte.isBlank b = false := by
  obtain ⟨c, first, solid⟩ := solidStartIff.mp starts
  refine ⟨List.ne_nil_of_mem (List.mem_of_mem_head? first), fun b same => ?_⟩
  rw [first, Option.some.injEq] at same
  exact same ▸ solid

theorem endSolid (ends : solidEnd bytes = true) (b : UInt8) (last : bytes.getLast? = some b) : Byte.isBlank b = false := by
  obtain ⟨c, same, solid⟩ := solidEndIff.mp ends
  rw [last, Option.some.injEq] at same
  exact same ▸ solid

theorem solidStartAppend (starts : solidStart front = true) (rest : Bytes) : solidStart (front ++ rest) = true := by
  obtain ⟨b, first, solid⟩ := solidStartIff.mp starts
  exact solidStartIff.mpr ⟨b, by rw [List.head?_append, first, Option.some_or], solid⟩

theorem solidEndAppend (front : Bytes) (ends : solidEnd rest = true) : solidEnd (front ++ rest) = true := by
  obtain ⟨b, last, solid⟩ := solidEndIff.mp ends
  exact solidEndIff.mpr ⟨b, by rw [List.getLast?_append, last, Option.some_or], solid⟩

theorem fairAppend (plain : unbroken (front ++ rest) = true) (starts : solidStart front = true)
    (ends : solidEnd rest = true) : fair (front ++ rest) = true := by
  rw [fair, plain, solidStartAppend starts, solidEndAppend front ends]
  rfl

end Bytes

namespace Byte

theorem digitSolid {b : UInt8} (digit : isDigit b = true) : isBlank b = false := by
  refine Bool.eq_false_iff.mpr fun blank => ?_
  simp only [isBlank, Bool.or_eq_true, beq_iff_eq] at blank
  rcases blank with rfl | rfl
  · exact absurd digit (by decide)
  · exact absurd digit (by decide)

end Byte

namespace Decimal

theorem writeFair (n : Nat) : (write n).fair = true := by
  obtain ⟨some, digits⟩ := writeNumeral n
  have starts : (write n).solidStart = true := by
    obtain ⟨b, rest, parts⟩ := List.exists_cons_of_ne_nil some
    exact Bytes.solidStartIff.mpr ⟨b, by rw [parts]; rfl, Byte.digitSolid (digits b (by simp [parts]))⟩
  have ends : (write n).solidEnd = true := by
    have last := List.getLast?_eq_some_getLast some
    exact Bytes.solidEndIff.mpr ⟨_, last, Byte.digitSolid (digits _ (List.getLast_mem some))⟩
  rw [Bytes.fair, writePlain, starts, ends]
  rfl

theorem writeShort {n k : Nat} (small : n < Nat.pow 10 (k + 1)) : (write n).length ≤ k + 1 := by
  induction k generalizing n with
  | zero =>
    rw [write, if_pos small]
    exact Nat.le_refl 1
  | succ k ih =>
    unfold write
    split
    · exact Nat.le_add_left 1 (k + 1)
    · have shorter := ih (n := n / 10) (Nat.div_lt_of_lt_mul (Nat.mul_comm _ 10 ▸ small))
      rw [List.length_append]
      exact Nat.succ_le_succ shorter

theorem writeWord {n : Nat} (word : n < Word.size) : (write n).length ≤ 20 :=
  writeShort (Nat.lt_trans word (by decide))

theorem readWrite {n : Nat} (word : n < Word.size) : read? (write n) = some n :=
  readIff.mpr ⟨writeNumeral n, numberWrite n, word⟩

end Decimal

namespace Calendar

theorem dateFair (seconds : Nat) : (httpDate seconds).fair = true := by
  have names : ∀ name ∈ weekdays, (ascii name).solidStart = true := by decide
  have weekday : (ascii (weekday (seconds / 86400))).solidStart = true := by
    have listed : (seconds / 86400 + 4) % 7 < weekdays.length := Nat.mod_lt _ (by decide)
    rw [Calendar.weekday, List.getElem?_eq_getElem listed]
    exact names _ (List.getElem_mem listed)
  have plain := datePlain seconds
  simp only [httpDate, List.append_assoc] at plain ⊢
  refine Bytes.fairAppend plain weekday ?_
  iterate 12 refine Bytes.solidEndAppend _ ?_
  decide

end Calendar

namespace Head

def readable (field : Bytes × Bytes) : Bool := !field.1.isEmpty && field.1.all Draft.isNameByte && field.2.fair

end Head

namespace FieldText

theorem readableParts {field : Bytes × Bytes} (fine : Head.readable field = true) :
    (field.1 ≠ [] ∧ ∀ b ∈ field.1, Draft.isNameByte b = true) ∧ field.2.unbroken = true ∧
      field.2.solidStart = true ∧ field.2.solidEnd = true := by
  simpa [Head.readable, Bytes.fair, and_assoc] using fine

theorem wholeEnding : ([Byte.cr, Byte.lf] : Bytes) = [Byte.lf] ∨ ([Byte.cr, Byte.lf] : Bytes) = [Byte.cr, Byte.lf] :=
  .inr rfl

def spaced (field : Bytes × Bytes) (fine : Head.readable field = true) : FieldText where
  name := field.1
  gap := [Byte.space]
  value := field.2
  trail := []
  ending := [Byte.cr, Byte.lf]
  nameSome := (readableParts fine).1.1
  nameBytes := (readableParts fine).1.2
  gapBlank := Byte.blankSpace
  valueSome := (Bytes.startSolid (readableParts fine).2.2.1).1
  valueUnbroken := Bytes.unbrokenIff.mp (readableParts fine).2.1
  valueStarts := (Bytes.startSolid (readableParts fine).2.2.1).2
  valueEnds := Bytes.endSolid (readableParts fine).2.2.2
  trailBlank := Byte.blankNone
  endingBreak := wholeEnding

theorem spacedText (field : Bytes × Bytes) (fine : Head.readable field = true) :
    (spaced field fine).text = Head.fieldLine field := by
  have separator : ascii ": " = [Byte.colon, Byte.space] := by decide
  simp [text, spaced, Head.fieldLine, Head.lineEnd, separator]

theorem spacedLines {fields : List (Bytes × Bytes)} (fine : ∀ field ∈ fields, Head.readable field = true) :
    ∃ lines : List FieldText, lines.flatMap text = fields.flatMap Head.fieldLine ∧
      (lines.map fun line => (line.name, line.value)) = fields := by
  induction fields with
  | nil => exact ⟨[], rfl, rfl⟩
  | cons field others ih =>
    obtain ⟨lines, same, told⟩ := ih fun other inside => fine other (List.mem_cons_of_mem _ inside)
    refine ⟨spaced field (fine field List.mem_cons_self) :: lines, ?_, ?_⟩
    · rw [List.flatMap_cons, List.flatMap_cons, spacedText, same]
    · rw [List.map_cons, told]
      rfl

end FieldText

namespace Draft
variable {buffer : Bytes} {d : Draft}

inductive Yields (buffer : Bytes) : Draft → List (Bytes × Bytes) → Draft → Prop where
  | blank {d e : Draft} (read : d.readHeaderLine buffer = (e, .found .blank)) : Yields buffer d [] e
  | field {d e f : Draft} {name value : Bytes} {others : List (Bytes × Bytes)}
      (read : d.readHeaderLine buffer = (e, .found .field)) (named : e.name.slice? buffer = some name)
      (told : e.value.slice? buffer = some value) (rest : Yields buffer e others f) :
      Yields buffer d ((name, value) :: others) f

theorem yieldsBlank {before : Bytes} (start : d.field = .start) (here : d.cursor = before.length) :
    ∃ e, Yields (before ++ Head.lineEnd) d [] e ∧ e.cursor = (before ++ Head.lineEnd).length := by
  have front : Head.lineEnd <+: (before ++ Head.lineEnd).drop d.cursor := by
    simp only [here, List.drop_left, List.prefix_refl]
  exact ⟨_, .blank (readBlank (.inr rfl) start front), by rw [List.length_append, ← here]; rfl⟩

theorem yieldsLine (line : FieldText) {before rest : Bytes} (word : (before ++ (line.text ++ rest)).length < Word.size)
    (start : d.field = .start) (here : d.cursor = before.length) :
    ∃ e, d.readHeaderLine (before ++ (line.text ++ rest)) = (e, .found .field) ∧ e.field = .start ∧
      e.cursor = (before ++ line.text).length ∧ e.name.slice? (before ++ (line.text ++ rest)) = some line.name ∧
      e.value.slice? (before ++ (line.text ++ rest)) = some line.value := by
  have inside : d.cursor ≤ (before ++ (line.text ++ rest)).length := by
    rw [here, List.length_append]
    exact Nat.le_add_right _ _
  have front : line.text <+: (before ++ (line.text ++ rest)).drop d.cursor := by
    rw [here, List.drop_left]
    exact List.prefix_append _ _
  refine ⟨_, readLine line start front, rfl, ?_, ?_, ?_⟩
  · rw [behindHere line inside front word, List.length_append, here]
  · rw [behindHere line inside front word, here]
    exact line.nameSliced before rest word
  · have value := (line.valueSliced before rest word).1
    rw [List.length_append] at value
    rw [behindHere line inside front word, here]
    exact value

theorem yieldsLines {lines : List FieldText} {before : Bytes}
    (word : (before ++ (lines.flatMap FieldText.text ++ Head.lineEnd)).length < Word.size) (start : d.field = .start)
    (here : d.cursor = before.length) :
    ∃ e, Yields (before ++ (lines.flatMap FieldText.text ++ Head.lineEnd)) d
        (lines.map fun line => (line.name, line.value)) e ∧
      e.cursor = (before ++ (lines.flatMap FieldText.text ++ Head.lineEnd)).length := by
  induction lines generalizing before d with
  | nil => exact yieldsBlank start here
  | cons line others ih =>
    have parts : before ++ ((line :: others).flatMap FieldText.text ++ Head.lineEnd) =
        before ++ (line.text ++ (others.flatMap FieldText.text ++ Head.lineEnd)) := by
      rw [List.flatMap_cons, List.append_assoc]
    have moved : before ++ (line.text ++ (others.flatMap FieldText.text ++ Head.lineEnd)) =
        before ++ line.text ++ (others.flatMap FieldText.text ++ Head.lineEnd) := (List.append_assoc _ _ _).symm
    rw [parts] at word ⊢
    obtain ⟨e, read, begun, cursor, named, told⟩ := yieldsLine line word start here
    rw [moved] at word
    obtain ⟨f, later, ends⟩ := ih word begun cursor
    rw [← moved] at later ends
    exact ⟨f, .field read named told later, ends⟩

end Draft

namespace Head
variable {limits : Limits} {now : Bytes} {size : Nat} {r : Request}

theorem namesReadable : ∀ name ∈ ["Date", "Server", "Content-Type", "Content-Length", "Connection", "Keep-Alive"],
    (!(ascii name).isEmpty && (ascii name).all Draft.isNameByte) = true ∧ (ascii name).length ≤ 14 := by decide

theorem textsFair : ∀ text ∈ [serverName, "keep-alive", "close"],
    (ascii text).fair = true ∧ (ascii text).length ≤ 150 := by decide

theorem typeFair (typed : Typed r) : (ascii r.contentType).fair = true ∧ (ascii r.contentType).length ≤ 150 := by
  have listed : ∀ text ∈ Mime.fallback :: Mime.types.map Prod.snd,
      (ascii text).fair = true ∧ (ascii text).length ≤ 150 := by decide
  exact listed _ typed

theorem keptTimeFair {seconds : Nat} (timeout : seconds < Word.size) :
    (ascii "timeout=" ++ Decimal.write seconds ++ ascii ", max=1").fair = true ∧
      (ascii "timeout=" ++ Decimal.write seconds ++ ascii ", max=1").length ≤ 150 := by
  have short := Decimal.writeWord timeout
  have texts : (ascii "timeout=").length = 8 ∧ (ascii ", max=1").length = 7 := by decide
  refine ⟨Bytes.fairAppend (keptTimePlain seconds) (Bytes.solidStartAppend (by decide) _) (by decide), ?_⟩
  simp only [List.length_append, texts]
  omega

theorem fieldReadable {name : String} {value : Bytes}
    (known : name ∈ ["Date", "Server", "Content-Type", "Content-Length", "Connection", "Keep-Alive"])
    (fine : value.fair = true) :
    readable (ascii name, value) = true ∧ (fieldLine (ascii name, value)).length ≤ 18 + value.length := by
  obtain ⟨named, short⟩ := namesReadable name known
  have separator : (ascii ": ").length = 2 ∧ lineEnd.length = 2 := by decide
  refine ⟨by rw [readable, named, fine]; rfl, ?_⟩
  simp only [fieldLine, List.length_append, separator]
  omega

theorem fieldShort {name : String} {value : Bytes}
    (known : name ∈ ["Date", "Server", "Content-Type", "Content-Length", "Connection", "Keep-Alive"])
    (fine : value.fair = true ∧ value.length ≤ 150) :
    readable (ascii name, value) = true ∧ (fieldLine (ascii name, value)).length ≤ 168 := by
  obtain ⟨whole, short⟩ := fieldReadable known fine.1
  exact ⟨whole, Nat.le_trans short (Nat.add_le_add_left fine.2 18)⟩

theorem undatedFew (limits : Limits) (r : Request) (size : Nat) : (undated limits r size).length ≤ 5 := by
  simp only [undated, lengthField, connectionFields, List.length_append]
  repeat' split
  all_goals simp

theorem linesShort {fields : List (Bytes × Bytes)} {bound : Nat}
    (short : ∀ field ∈ fields, (fieldLine field).length ≤ bound) :
    (fields.flatMap fieldLine).length ≤ fields.length * bound := by
  induction fields with
  | nil => exact Nat.zero_le _
  | cons field others ih =>
    rw [List.forall_mem_cons] at short
    have rest := ih short.2
    rw [List.flatMap_cons, List.length_append, List.length_cons, Nat.add_mul]
    omega

theorem openingShort (h : Head) : h.opening.length ≤ 61 := by
  have code : h.status.code < Word.size := by
    cases h.status <;> decide
  have number := Decimal.writeWord code
  have reason : (ascii h.status.reason).length ≤ 31 := by
    cases h.status <;> decide
  have either : ∀ text ∈ [ascii "HTTP/1.0", ascii "HTTP/1.1"], text.length = 8 := by decide
  have version := either _ h.version.echoListed
  simp only [opening, List.length_append, List.length_singleton, version]
  omega

theorem renderParts (h : Head) : h.render = h.opening ++ lineEnd ++ (h.fields.flatMap fieldLine ++ lineEnd) := by
  rw [render, List.append_assoc]
  rfl

section
variable (typed : Typed r) (timeout : Duration.wholeSeconds limits.keepAlive < Word.size) (word : size < Word.size)
include typed timeout word

theorem undatedReadable : ∀ field ∈ undated limits r size,
    readable field = true ∧ (fieldLine field).length ≤ 168 := by
  apply undatedEach
  case server => exact fieldShort (by simp) (textsFair _ (by simp))
  case type => exact fieldShort (by simp) (typeFair typed)
  case length =>
    exact fieldShort (by simp) ⟨Decimal.writeFair size, Nat.le_trans (Decimal.writeWord word) (by decide)⟩
  case opens => exact fieldShort (by simp) (textsFair _ (by simp))
  case closes => exact fieldShort (by simp) (textsFair _ (by simp))
  case timeout => exact fieldShort (by simp) (keptTimeFair timeout)

variable (date : now.fair = true) (housed : now.length ≤ Word.mostBytes)
include date housed

theorem renderWord : (forRequest limits now r size).render.length < Word.size := by
  have few := undatedFew limits r size
  have lines := linesShort fun field inside => (undatedReadable typed timeout word field inside).2
  have dated := (fieldReadable (List.mem_cons_self (a := "Date")) date).2
  have opening := openingShort (forRequest limits now r size)
  have ending : lineEnd.length = 2 := rfl
  have room : 61 + 2 + (18 + Word.mostBytes) + 5 * 168 + 2 < Word.size := by decide
  have total := Nat.mul_le_mul_right 168 few
  simp only [renderParts, fieldsDated, List.flatMap_cons, List.length_append, ending]
  omega

theorem readBack {d : Draft} (start : d.field = .start)
    (behind : d.cursor = ((forRequest limits now r size).opening ++ lineEnd).length) :
    ∃ e, Draft.Yields (forRequest limits now r size).render d (forRequest limits now r size).fields e ∧
      e.cursor = (forRequest limits now r size).render.length := by
  have fits := renderWord typed timeout word date housed
  have fine : ∀ field ∈ (forRequest limits now r size).fields, readable field = true :=
    List.forall_mem_cons.mpr ⟨(fieldReadable (by simp) date).1,
      fun field inside => (undatedReadable typed timeout word field inside).1⟩
  obtain ⟨lines, same, told⟩ := FieldText.spacedLines fine
  rw [renderParts, ← same] at fits ⊢
  rw [← told]
  exact Draft.yieldsLines fits start behind

end

end Head

namespace Reply

theorem answeredKeeps (limits : Limits) (age : Duration) (r : Request) :
    (ageRule limits age (handOver r)).keepsAlive = (r.keepsAlive && decide (age ≤ limits.connectionTime)) := by
  have handed : (handOver r).keepsAlive = r.keepsAlive := by
    unfold handOver
    split
    · rfl
    · rfl
  unfold ageRule
  by_cases old : age > limits.connectionTime
  · rw [if_pos old, decide_eq_false (Nat.not_le.mpr old), Bool.and_false]
    rfl
  · rw [if_neg old, decide_eq_true (Nat.not_lt.mp old), Bool.and_true, handed]

end Reply

namespace Intake

theorem typedThrough (service : Service) (deeds : List Deed) : Head.Typed (performAll service deeds).request := by
  suffices kept : ∀ i : Intake, Head.Typed i.request → Head.Typed (deeds.foldl (perform service) i).request from
    kept {} List.mem_cons_self
  induction deeds with
  | nil => exact fun _ typed => typed
  | cons deed rest ih =>
    refine fun i typed => ih (i.perform service deed) ?_
    cases deed with
    | push bytes => exact typed
    | call => exact (Head.keptTyped service).advance typed i.buffer
    | renew => exact List.mem_cons_self

theorem headReadBack (service : Service) (deeds : List Deed) (now : Bytes) (age : Duration) {output : OffsetBuffer}
    (inside : output.start ≤ output.stored.length) (empty : output.unread = [])
    (date : now.fair = true) (housed : now.length ≤ Word.mostBytes)
    (timeout : Duration.wholeSeconds service.limits.keepAlive < Word.size)
    (word : Reply.sizeOf (Reply.selected service (performAll service deeds).request) < Word.size) :
    let r := (performAll service deeds).request
    let size := Reply.sizeOf (Reply.selected service r)
    let keeps := r.keepsAlive && decide (age ≤ service.limits.connectionTime)
    let written := (Reply.compose service now age r output).output.unread
    let told : List (Bytes × Bytes) :=
      [(ascii "Date", now), (ascii "Server", ascii serverName),
       (ascii "Content-Type", ascii r.contentType)] ++
      (if 0 < size ∨ keeps then [(ascii "Content-Length", Decimal.write size)] else []) ++
      (if keeps then
        [(ascii "Connection", ascii "keep-alive"),
         (ascii "Keep-Alive",
           ascii "timeout=" ++ Decimal.write (Duration.wholeSeconds service.limits.keepAlive) ++ ascii ", max=1")]
      else [(ascii "Connection", ascii "close")])
    ∃ version opening rest, version ∈ [ascii "HTTP/1.0", ascii "HTTP/1.1"] ∧
      opening = version ++ [Byte.space] ++ Decimal.write r.status.code ++ [Byte.space] ++ ascii r.status.reason ∧
      Byte.cr ∉ opening ∧ Byte.lf ∉ opening ∧ written = opening ++ [Byte.cr, Byte.lf] ++ rest ∧
      (∀ d : Draft, d.field = .start → d.cursor = (opening ++ [Byte.cr, Byte.lf]).length →
        ∃ e, Draft.Yields written d told e ∧ e.cursor = written.length) ∧
      Decimal.read? (Decimal.write size) = some size := by
  intro r size keeps written told
  let answered := Reply.ageRule service.limits age (Reply.handOver r)
  let head := Head.forRequest service.limits now answered size
  obtain ⟨_, status, type, _⟩ := Reply.answeredSame service.limits age r
  have keeping : answered.keepsAlive = keeps := Reply.answeredKeeps service.limits age r
  have rendered : written = head.render := by
    have appended := OffsetBuffer.unreadAppend inside head.render
    rwa [empty, List.nil_append] at appended
  have fields : head.fields = told := by
    simp only [head, told, Head.forRequest, Head.lengthField, Head.connectionFields, keeping, answered, type]
  have typed : Head.Typed answered := by
    rw [Head.Typed, type]
    exact typedThrough service deeds
  have plain := Head.openingPlain head
  refine ⟨head.version.echo, head.opening, _, head.version.echoListed, ?_, Bytes.crOutside plain, Bytes.lfOutside plain,
    rendered.trans (Head.renderParts head), fun d start behind => ?_, Decimal.readWrite word⟩
  · simp only [Head.opening, head, Head.forRequest, answered, status]
  · rw [rendered, ← fields]
    exact Head.readBack typed timeout word date housed start behind

theorem headReadBackOfFile :
    let service : Service := ⟨⟨[(ascii "a.txt", .file (ascii "hello"))]⟩, {}, ChainTable.byteHash⟩
    let deeds : List Deed :=
      [.push (ascii "GET /a.txt HTTP/1.0\r\nConnection: keep-alive\r\nX: a: b \n\n"), .call]
    let output : OffsetBuffer := { stored := ascii "old", start := 3 }
    let written := (Reply.compose service (Calendar.httpDate 784111777) 0 (performAll service deeds).request output).output.unread
    (performAll service deeds).due = true ∧ ascii "HTTP/1.0 200 OK\r\n" <+: written ∧ ∃ e, e.cursor = written.length ∧
      Draft.Yields written { cursor := 17 }
        [(ascii "Date", ascii "Sun, 06 Nov 1994 08:49:37 GMT"), (ascii "Server", ascii serverName),
         (ascii "Content-Type", ascii "text/plain"), (ascii "Content-Length", ascii "5"),
         (ascii "Connection", ascii "keep-alive"), (ascii "Keep-Alive", ascii "timeout=30, max=1")] e := by
  intro service deeds output written
  have date : (Calendar.httpDate 784111777).fair = true := Calendar.dateFair _
  have housed : (Calendar.httpDate 784111777).length ≤ Word.mostBytes := by decide +kernel
  have timeout : Duration.wholeSeconds service.limits.keepAlive < Word.size := by decide
  have word : Reply.sizeOf (Reply.selected service (performAll service deeds).request) < Word.size := by decide +kernel
  obtain ⟨version, opening, rest, listed, parts, _, _, _, reads, _⟩ :=
    headReadBack service deeds (Calendar.httpDate 784111777) 0 (by decide : output.start ≤ output.stored.length) rfl
      date housed timeout word
  have status : (performAll service deeds).request.status = .ok := by decide +kernel
  have short : (opening ++ [Byte.cr, Byte.lf]).length = 17 := by
    rw [parts, status]
    simp only [List.mem_cons, List.not_mem_nil, or_false] at listed
    rcases listed with rfl | rfl
    · decide +kernel
    · decide +kernel
  obtain ⟨e, yields, ends⟩ := reads { cursor := 17 } rfl short.symm
  refine ⟨by decide +kernel, by decide +kernel, e, ends, ?_⟩
  refine (congrArg (fun fields => Draft.Yields written { cursor := 17 } fields e) ?_).mp yields
  decide +kernel

end Intake

end StaticHttp
