import StaticHttp.Proofs.Numerals
import StaticHttp.Reply
/-! What a client makes of the bytes it receives. It knows the methods it has sent
and nothing of the server, and takes one response after the other off the stream:
the head through its first blank line, then as many bytes as the head tells. -/
namespace StaticHttp

structure Response where
  statusLine : Bytes
  fields : List (Bytes × Bytes)
  body : Bytes
  deriving DecidableEq, Repr

namespace Client

def cut (mark : Bytes) : Bytes → Option (Bytes × Bytes)
  | [] => none
  | b :: rest =>
      if mark.isPrefixOf (b :: rest) then some ([], (b :: rest).drop mark.length)
      else (cut mark rest).map fun parts => (b :: parts.1, parts.2)

def lines : Bytes → List Bytes
  | [] => [[]]
  | [b] => [[b]]
  | b :: c :: rest =>
      if b = Byte.cr ∧ c = Byte.lf then [] :: lines rest
      else
        match lines (c :: rest) with
        | [] => [[b]]
        | line :: others => (b :: line) :: others

def blankLine : Bytes := Head.lineEnd ++ Head.lineEnd

def separator : Bytes := ascii ": "

def readFields : List Bytes → Option (List (Bytes × Bytes))
  | [] => some []
  | line :: others => do
      let field ← cut separator line
      let fields ← readFields others
      some (field :: fields)

def field? (name : String) (fields : List (Bytes × Bytes)) : Option Bytes :=
  (fields.find? fun field => field.1.sameLetters (ascii name)).map Prod.snd

def bodyLength (method : Option Method) (fields : List (Bytes × Bytes)) : Option Nat :=
  if method = some .head then some 0
  else
    match field? "Content-Length" fields with
    | none => some 0
    | some value => if Decimal.Numeral value then some (Decimal.number value) else none

def next (method : Option Method) (stream : Bytes) : Option (Response × Bytes) := do
  let (text, rest) ← cut blankLine stream
  match lines text with
  | [] => none
  | statusLine :: others =>
      let fields ← readFields others
      let length ← bodyLength method fields
      if length ≤ rest.length then some (⟨statusLine, fields, rest.take length⟩, rest.drop length) else none

def decode : List (Option Method) → Bytes → Option (List Response)
  | _, [] => some []
  | [], _ :: _ => none
  | method :: methods, b :: stream => do
      let (response, rest) ← next method (b :: stream)
      let responses ← decode methods rest
      some (response :: responses)

theorem cutHere (mark rest : Bytes) (some : mark ≠ []) : cut mark (mark ++ rest) = .some ([], rest) := by
  cases mark with
  | nil => contradiction
  | cons b others =>
    have starts : (b :: others).isPrefixOf (b :: (others ++ rest)) = true := by
      simp [List.isPrefixOf_iff_prefix]
    rw [List.cons_append, cut, if_pos starts]
    simp

theorem cutStep {first b : UInt8} (other : b ≠ first) (mark text : Bytes) :
    cut (first :: mark) (b :: text) = (cut (first :: mark) text).map fun parts => (b :: parts.1, parts.2) := by
  have apart : ¬ (first :: mark).isPrefixOf (b :: text) = true := by
    simp [List.isPrefixOf_iff_prefix, List.cons_prefix_cons, other.symm]
  rw [cut, if_neg apart]

theorem cutOver {first : UInt8} {front : Bytes} (unmarked : first ∉ front) (mark text : Bytes) :
    cut (first :: mark) (front ++ text) =
      (cut (first :: mark) text).map fun parts => (front ++ parts.1, parts.2) := by
  induction front with
  | nil => simp
  | cons b rest ih =>
    rw [List.cons_append, cutStep (List.ne_of_not_mem_cons unmarked).symm, ih (List.not_mem_of_not_mem_cons unmarked)]
    simp [Option.map_map, Function.comp_def]

theorem cutUnmarked {first : UInt8} {front : Bytes} (unmarked : first ∉ front) (mark rest : Bytes) :
    cut (first :: mark) (front ++ (first :: mark ++ rest)) = some (front, rest) := by
  rw [cutOver unmarked, cutHere _ _ (by simp)]
  simp

def joined (first : Bytes) : List Bytes → Bytes
  | [] => first
  | line :: others => first ++ Head.lineEnd ++ joined line others

theorem linesSome (text : Bytes) : lines text ≠ [] := by
  fun_cases lines text
  all_goals exact List.cons_ne_nil _ _

theorem linesCons {b : UInt8} (other : b ≠ Byte.cr) (text : Bytes) :
    lines (b :: text) = (b :: (lines text).headD []) :: (lines text).tail := by
  cases text with
  | nil => rfl
  | cons c rest =>
    rw [lines, if_neg (fun both => other both.1)]
    cases lines (c :: rest) with
    | nil => rfl
    | cons line others => rfl

theorem linesOver {line : Bytes} (unbroken : Byte.cr ∉ line) (text : Bytes) :
    lines (line ++ text) = (line ++ (lines text).headD []) :: (lines text).tail := by
  induction line with
  | nil =>
    obtain ⟨first, others, same⟩ := List.exists_cons_of_ne_nil (linesSome text)
    simp [same]
  | cons b rest ih =>
    rw [List.cons_append, linesCons (List.ne_of_not_mem_cons unbroken).symm,
      ih (List.not_mem_of_not_mem_cons unbroken)]
    rfl

theorem linesBroken {line : Bytes} (unbroken : Byte.cr ∉ line) (text : Bytes) :
    lines (line ++ Head.lineEnd ++ text) = line :: lines text := by
  have here : lines (Head.lineEnd ++ text) = [] :: lines text := by simp [Head.lineEnd, lines]
  rw [List.append_assoc, linesOver unbroken, here]
  simp

theorem linesJoined {first : Bytes} {others : List Bytes} (unbroken : ∀ line ∈ first :: others, Byte.cr ∉ line) :
    lines (joined first others) = first :: others := by
  induction others generalizing first with
  | nil => simpa [joined, lines] using linesOver (unbroken first (by simp)) []
  | cons line others ih =>
    have later := ih fun line inside => unbroken line (List.mem_cons_of_mem first inside)
    rw [joined, linesBroken (unbroken first (by simp)), later]

theorem joinedStarts {line : Bytes} (filled : line ≠ []) (unbroken : Byte.cr ∉ line) (others : List Bytes) :
    ∃ b rest, joined line others = b :: rest ∧ b ≠ Byte.cr := by
  obtain ⟨b, rest, rfl⟩ := List.exists_cons_of_ne_nil filled
  have other := (List.ne_of_not_mem_cons unbroken).symm
  cases others with
  | nil => exact ⟨b, rest, rfl, other⟩
  | cons next others => exact ⟨b, _, rfl, other⟩

theorem cutJoined {first : Bytes} {others : List Bytes} (unbroken : ∀ line ∈ first :: others, Byte.cr ∉ line)
    (filled : ∀ line ∈ others, line ≠ []) (rest : Bytes) :
    cut blankLine (joined first others ++ (blankLine ++ rest)) = some (joined first others, rest) := by
  induction others generalizing first with
  | nil => exact cutUnmarked (unbroken first (by simp)) _ rest
  | cons line others ih =>
    have later := ih (fun line inside => unbroken line (List.mem_cons_of_mem first inside))
      (fun line inside => filled line (List.mem_cons_of_mem _ inside))
    obtain ⟨b, more, starts, other⟩ := joinedStarts (filled line (by simp)) (unbroken line (by simp)) others
    -- At the line end the mark would need a second one, where the next line starts.
    have notHere : ¬ blankLine.isPrefixOf (Byte.cr :: Byte.lf :: (joined line others ++ (blankLine ++ rest))) = true := by
      simp [starts, blankLine, Head.lineEnd, List.isPrefixOf_iff_prefix, List.cons_prefix_cons, other.symm]
    have step : cut blankLine (Byte.lf :: (joined line others ++ (blankLine ++ rest))) =
        some (Byte.lf :: joined line others, rest) := by
      have past := cutStep (show Byte.lf ≠ Byte.cr by decide) [Byte.lf, Byte.cr, Byte.lf]
        (joined line others ++ (blankLine ++ rest))
      exact past.trans (congrArg _ later)
    have whole := cutOver (unbroken first (by simp)) [Byte.lf, Byte.cr, Byte.lf]
      (Byte.cr :: Byte.lf :: (joined line others ++ (blankLine ++ rest)))
    have parts : joined first (line :: others) ++ (blankLine ++ rest) =
        first ++ Byte.cr :: Byte.lf :: (joined line others ++ (blankLine ++ rest)) := by
      simp [joined, Head.lineEnd]
    rw [parts]
    refine whole.trans ?_
    rw [show [Byte.cr, Byte.lf, Byte.cr, Byte.lf] = blankLine from rfl, cut, if_neg notHere, step]
    simp [joined, Head.lineEnd]

theorem joinedRender (opening : Bytes) (texts : List Bytes) :
    opening ++ Head.lineEnd ++ texts.flatMap (· ++ Head.lineEnd) ++ Head.lineEnd = joined opening texts ++ blankLine := by
  induction texts generalizing opening with
  | nil => simp [joined, blankLine]
  | cons text others ih => simpa [joined] using congrArg (opening ++ Head.lineEnd ++ ·) (ih text)

end Client

namespace Head

def opening (h : Head) : Bytes :=
  h.version.echo ++ [Byte.space] ++ Decimal.write h.status.code ++ [Byte.space] ++ ascii h.status.reason

def fieldText (field : Bytes × Bytes) : Bytes := field.1 ++ Client.separator ++ field.2

structure PlainField (field : Bytes × Bytes) : Prop where
  unended : Byte.colon ∉ field.1
  name : Byte.cr ∉ field.1
  value : Byte.cr ∉ field.2

structure Plain (h : Head) : Prop where
  opening : Byte.cr ∉ h.opening
  fields : ∀ field ∈ h.fields, PlainField field

variable {h : Head}

theorem renderLines (h : Head) :
    h.render = Client.joined h.opening (h.fields.map fieldText) ++ Client.blankLine := by
  rw [← Client.joinedRender, List.flatMap_map]
  rfl

theorem PlainField.unbroken {field : Bytes × Bytes} (plain : PlainField field) : Byte.cr ∉ fieldText field := by
  simp only [fieldText, List.mem_append, not_or]
  exact ⟨⟨plain.name, by decide⟩, plain.value⟩

theorem Plain.linesUnbroken (plain : Plain h) : ∀ line ∈ h.opening :: h.fields.map fieldText, Byte.cr ∉ line := by
  intro line inside
  rcases List.mem_cons.mp inside with rfl | later
  · exact plain.opening
  · obtain ⟨field, there, rfl⟩ := List.mem_map.mp later
    exact (plain.fields field there).unbroken

end Head

namespace Client

theorem readFieldTexts {fields : List (Bytes × Bytes)} (names : ∀ field ∈ fields, Byte.colon ∉ field.1) :
    readFields (fields.map Head.fieldText) = some fields := by
  induction fields with
  | nil => rfl
  | cons field others ih =>
    have here : cut separator (Head.fieldText field) = some field := by
      rw [Head.fieldText, List.append_assoc]
      exact cutUnmarked (names field (by simp)) [Byte.space] field.2
    have later := ih fun field inside => names field (List.mem_cons_of_mem _ inside)
    simp only [List.map_cons, readFields, here, later, bind, Option.bind_some]

structure Message where
  method : Option Method
  head : Head
  body : Bytes

namespace Message

def text (m : Message) : Bytes := m.head.render ++ m.body

def response (m : Message) : Response := ⟨m.head.opening, m.head.fields, m.body⟩

structure Sound (m : Message) : Prop where
  plain : m.head.Plain
  told : bodyLength m.method m.head.fields = some m.body.length

end Message

theorem nextMessage {m : Message} (sound : m.Sound) (rest : Bytes) :
    next m.method (m.text ++ rest) = some (m.response, rest) := by
  have unbroken := sound.plain.linesUnbroken
  have filled : ∀ line ∈ m.head.fields.map Head.fieldText, line ≠ [] := by
    intro line inside
    obtain ⟨field, _, rfl⟩ := List.mem_map.mp inside
    simp [Head.fieldText, separator, ascii]
  have parts : m.text ++ rest =
      joined m.head.opening (m.head.fields.map Head.fieldText) ++ (blankLine ++ (m.body ++ rest)) := by
    simp only [Message.text, Head.renderLines, List.append_assoc]
  have fields := readFieldTexts fun field inside => (sound.plain.fields field inside).unended
  have there : m.body.length ≤ (m.body ++ rest).length := by simp
  simp only [next, parts, cutJoined unbroken filled, linesJoined unbroken, fields, sound.told, bind, Option.bind_some]
  rw [if_pos there, List.take_left, List.drop_left]
  rfl

theorem decodeMessages {messages : List Message} (sound : ∀ m ∈ messages, m.Sound) (further : List (Option Method)) :
    decode (messages.map Message.method ++ further) (messages.flatMap Message.text) =
      some (messages.map Message.response) := by
  induction messages with
  | nil => simp [decode]
  | cons m others ih =>
    have here := nextMessage (sound m (by simp)) (others.flatMap Message.text)
    have later := ih fun m inside => sound m (List.mem_cons_of_mem _ inside)
    have some : m.text ++ others.flatMap Message.text ≠ [] := by
      simp [Message.text, Head.renderLines, blankLine, Head.lineEnd]
    obtain ⟨b, stream, starts⟩ := List.exists_cons_of_ne_nil some
    rw [List.flatMap_cons, List.map_cons, List.cons_append, starts, decode, ← starts, here]
    simp only [bind, Option.bind_some, later, List.map_cons]

end Client
end StaticHttp
