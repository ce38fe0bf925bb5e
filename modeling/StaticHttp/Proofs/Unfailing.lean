import StaticHttp.Proofs.Checked
import StaticHttp.Proofs.Lifetimes
/-! A request that looks at its bounds, and goes round once for each of its stages.
It never misses one: whatever was delivered, called for and begun anew before, it comes
to what the running one comes to, in a bounded number of rounds. -/
namespace StaticHttp

namespace FieldSpans

def value? (spans : FieldSpans) (field : Field) (buffer : Bytes) : Option (Option Bytes) :=
  match spans.get? field with
  | some span => (span.slice? buffer).map some
  | none => some none

theorem valueChecked {spans : FieldSpans} {buffer : Bytes} (word : buffer.length < Word.size)
    (within : ∀ entry ∈ spans, entry.2.reach ≤ buffer.length) (field : Field) :
    spans.value? field buffer = some (spans.value field buffer) := by
  unfold FieldSpans.value? FieldSpans.value FieldSpans.get?
  cases noted : List.lookup field spans with
  | none => rfl
  | some span =>
    obtain ⟨before, after, parts, _⟩ := List.lookup_eq_some_iff.mp noted
    have sliced := Span.sliceInside word (within (field, span) (by simp [parts]))
    simp only [sliced, bind, Option.bind, Option.map]

end FieldSpans

namespace Draft

def spans (d : Draft) : List Span :=
  [d.target.whole, d.target.path, d.target.query, d.target.extension, d.name, d.value] ++ d.fields.map Prod.snd

theorem Within.spans {d : Draft} {n : Nat} (within : d.Within n) : ∀ span ∈ d.spans, span.reach ≤ n := by
  intro span member
  simp only [Draft.spans, List.cons_append, List.nil_append, List.mem_cons, List.mem_map] at member
  rcases member with rfl | rfl | rfl | rfl | rfl | rfl | ⟨entry, inside, rfl⟩
  · exact within.target.whole
  · exact within.target.path
  · exact within.target.query
  · exact within.target.extension
  · exact within.name
  · exact within.value
  · exact within.fields entry inside

def TokenOpen (d : Draft) : Prop := d.line = .method ∨ d.line = .target ∨ d.field = .name ∨ d.field = .value

instance (d : Draft) : Decidable d.TokenOpen := by unfold TokenOpen; infer_instance

end Draft

namespace Turn
variable {β : Type}

def after (t : Turn β) (events : List Event) : Turn β := { t with events := events ++ t.events }

theorem Plain.parts {before : OffsetBuffer} {t : Turn OffsetBuffer} {u : Turn Bytes} (plain : t.Plain before u) :
    t.request = u.request ∧ t.buffer.unread = u.buffer ∧ t.outcome = u.outcome := by
  rw [← plain.same]
  exact ⟨rfl, rfl, rfl⟩

end Turn

namespace OffsetBuffer

theorem Sound.unreadWord {b : OffsetBuffer} (sound : b.Sound) : b.unread.length < Word.size := by
  rw [unreadLength]
  exact Nat.lt_of_le_of_lt (Nat.sub_le _ _) sound.word

end OffsetBuffer

namespace Request
open ByteQueue (unread consume)
open OffsetBuffer (Sound)
open Draft (InLine InHead)
variable {β : Type} [ByteQueue β]

def release? (buffer : β) (n : Nat) : Option β := do
  let _ ← less? (unread buffer).length n
  some (consume buffer n)

def takeLine? (service : Service) (r : Request) (buffer : β) : Option (Turn β) := do
  match ← r.draft.readRequestLine? (unread buffer) with
  | (draft, .found ()) =>
      if draft.version.major ≠ 1 then some ⟨{ r with draft := draft }, buffer, .failed .unsupportedVersion, []⟩
      else
        let path ← draft.target.path.slice? (unread buffer)
        let _ ← draft.target.extension.slice? (unread buffer)
        some (locate service { r with draft := { draft with keepAlive := draft.version.keepsAlive } } buffer path)
  | (draft, outcome) => some ⟨{ r with draft := draft }, buffer, outcome, []⟩

def takeHeaders? (service : Service) (lines : Nat) (r : Request) (buffer : β) : Option (Turn β) := do
  match ← Draft.headLines? service.hash service.limits (unread buffer) lines r.draft with
  | (draft, .found ()) =>
      let target ← draft.target.whole.slice? (unread buffer)
      let host ← draft.fields.value? .host (unread buffer)
      let rest ← release? buffer draft.cursor
      some ⟨{ r with draft := { draft with cursor := 0 }, phase := .body }, rest, .found (),
        [.request draft.method (some target) host draft.version]⟩
  | (draft, outcome) => some ⟨{ r with draft := draft }, buffer, outcome, []⟩

def takeBody? (r : Request) (buffer : β) : Option (Turn β) := do
  let lacking ← less? r.draft.contentLength r.draft.bodyRead
  let there ← less? (unread buffer).length r.draft.cursor
  let draft := { r.draft with
    bodyRead := r.draft.bodyRead + min lacking there, cursor := r.draft.cursor + min lacking there }
  let rest ← release? buffer draft.cursor
  let read := { r with draft := { draft with cursor := 0 } }
  if draft.bodyRead ≥ draft.contentLength then some ⟨read.conclude.1, rest, .found (), read.conclude.2⟩
  else some ⟨read, rest, .more, []⟩

def stage? (service : Service) (lines : Nat) (r : Request) (buffer : β) : Option (Turn β) :=
  match r.phase with
  | .requestLine => takeLine? service r buffer
  | .headers => takeHeaders? service lines r buffer
  | .body => takeBody? r buffer
  | .done => some ⟨r, buffer, .found (), []⟩

def rounds? (service : Service) (lines : Nat) : Nat → Request → β → List Event → Option (Progress β)
  | 0, _, _, _ => none
  | rounds + 1, r, buffer, events =>
      if r.phase = .done then some ⟨r, buffer, true, events⟩
      else do
        let t ← stage? service lines r buffer
        match t.outcome with
        | .found () => rounds? service lines rounds t.request t.buffer (events ++ t.events)
        | _ => some (settle service { t with events := events ++ t.events })

def advance? (service : Service) (rounds lines : Nat) (r : Request) (buffer : β) : Option (Progress β) :=
  rounds? service lines rounds r buffer []

structure Bounded (limits : Limits) (r : Request) (held : Bytes) : Prop where
  cursor : r.draft.cursor ≤ held.length
  mark : r.draft.TokenOpen → r.draft.mark ≤ r.draft.cursor
  body : r.draft.bodyRead ≤ r.draft.contentLength
  length : r.draft.contentLength ≤ limits.bodyLimit
  spans : r.inHead = true → ∀ span ∈ r.draft.spans, span.reach ≤ held.length ∧ (span.slice? held).isSome = true

variable {service : Service} {limits : Limits} {r : Request} {b : OffsetBuffer} {sent held : Bytes}

theorem releaseChecked {buffer : β} {n : Nat} (there : n ≤ (unread buffer).length) :
    release? buffer n = some (consume buffer n) := by
  simp only [release?, lessOrdered there, Option.bind_eq_bind, Option.bind_some]

theorem takeLineChecked {buffer : β} (word : (unread buffer).length < Word.size) (line : AtLine r (unread buffer)) :
    takeLine? service r buffer = some (takeLine service r buffer) := by
  have read := Draft.readLineChecked word line.inside line.known
  simp only [takeLine?, takeLine, read, Option.bind_eq_bind, Option.bind_some]
  cases ended : r.draft.readRequestLine (unread buffer) with
  | mk draft outcome =>
    cases outcome with
    | found result =>
      obtain ⟨short, known⟩ := Draft.readLineFound line.inside line.known ended
      have within := known.within.mono (List.length_take_le' _ _)
      have path := Span.sliceInside word within.target.path
      have extension := Span.sliceInside word within.target.extension
      simp only [path, extension, Option.bind_some]
      split <;> rfl
    | more => rfl
    | failed fault => rfl

theorem takeHeadersChecked {buffer : β} {lines : Nat} (word : (unread buffer).length < Word.size)
    (headers : AtHeaders r (unread buffer)) (enough : (unread buffer).length < lines) :
    takeHeaders? service lines r buffer = some (takeHeaders service r buffer) := by
  have read : Draft.headLines? service.hash service.limits (unread buffer) lines r.draft =
      some (r.draft.readHeaders service.hash service.limits (unread buffer)) :=
    Draft.readHeadersChecked word headers.inside headers.known enough
  simp only [takeHeaders?, takeHeaders, read, Option.bind_eq_bind, Option.bind_some]
  cases ended : r.draft.readHeaders service.hash service.limits (unread buffer) with
  | mk draft outcome =>
    cases outcome with
    | found result =>
      obtain ⟨short, _, reaches, _⟩ := Draft.readHeadersFound headers.inside headers.known ended
      have within := reaches.mono short
      have target := Span.sliceInside word within.target.whole
      have host := FieldSpans.valueChecked word within.fields .host
      simp only [target, host, releaseChecked short, Option.bind_some]
    | more => rfl
    | failed fault => rfl

theorem takeBodyChecked {buffer : β} (body : AtBody r) : takeBody? r buffer = some (takeBody r buffer) := by
  have there : r.draft.cursor ≤ (unread buffer).length := by simp [body.cursor]
  have released (lacking : Nat) : release? buffer (r.draft.cursor + min lacking ((unread buffer).length - r.draft.cursor)) =
      some (consume buffer (r.draft.cursor + min lacking ((unread buffer).length - r.draft.cursor))) :=
    releaseChecked (by omega)
  simp only [takeBody?, takeBody, Draft.readBody, Word.subOrdered body.unfilled, lessOrdered body.unfilled,
    lessOrdered there, released, Option.bind_eq_bind, Option.bind_some]
  split <;> rfl

theorem roundsDone {buffer : β} (done : r.phase = .done) (service : Service) (lines rounds : Nat) (events : List Event) :
    rounds? service lines (rounds + 1) r buffer events = some ⟨r, buffer, true, events⟩ := by
  simp only [rounds?, done, if_true]

theorem roundsStage {buffer : β} {lines rounds : Nat} {t : Turn β} {next : Request → β → Turn β}
    (undone : r.phase ≠ .done) (staged : stage? service lines r buffer = some t)
    (onward : t.outcome = .found () → ∀ events, rounds? service lines rounds t.request t.buffer events =
      some (settle service ((next t.request t.buffer).after events))) (events : List Event) :
    rounds? service lines (rounds + 1) r buffer events = some (settle service ((t.andThen next).after events)) := by
  simp only [rounds?, if_neg undone, staged, Option.bind_eq_bind, Option.bind_some]
  cases ended : t.outcome with
  | found =>
    simp only [onward ended, Turn.andThen, ended, Turn.after, List.append_assoc]
  | more => simp only [Turn.andThen, ended, Turn.after]
  | failed fault => simp only [Turn.andThen, ended, Turn.after]

theorem bodyRounds (sound : b.Sound) (body : AtBody r) (service : Service) (lines rounds : Nat) (events : List Event) :
    rounds? service lines (rounds + 2) r b events = some (settle service ((takeBody r b).after events)) := by
  have undone : r.phase ≠ .done := by simp [body.phase]
  have staged : stage? service lines r b = some (takeBody r b) := by
    simp only [stage?, body.phase]
    exact takeBodyChecked body
  have closing : (takeBody r b).andThen (fun r buffer => ⟨r, buffer, .found (), []⟩) = takeBody r b := by
    unfold Turn.andThen
    split
    · rename_i found
      simp only [List.append_nil, ← found]
    · rfl
  have plain : (takeBody r b).Plain b (takeBody r b.unread) := bodyPlain sound body
  obtain ⟨request, _, outcome⟩ := plain.parts
  rw [← closing]
  refine roundsStage undone staged (fun found later => ?_) events
  have done : (takeBody r b).request.phase = .done := by
    have turn : BodyTurn r b.unread (takeBody r b.unread) := bodyTurn body
    rw [outcome] at found
    rw [request]
    generalize takeBody r b.unread = t at turn found
    cases turn with
    | more => contradiction
    | found => exact (concludeDraft _).2
  rw [roundsDone done]
  simp only [Turn.after, settle, List.append_nil]

theorem headersRounds {lines : Nat} (sound : b.Sound) (headers : AtHeaders r b.unread) (enough : b.unread.length < lines)
    (rounds : Nat) (events : List Event) :
    rounds? service lines (rounds + 3) r b events =
      some (settle service (((takeHeaders service r b).andThen takeBody).after events)) := by
  have undone : r.phase ≠ .done := by simp [headers.phase]
  have word : b.unread.length < Word.size := sound.unreadWord
  have staged : stage? service lines r b = some (takeHeaders service r b) := by
    simp only [stage?, headers.phase]
    exact takeHeadersChecked word headers enough
  refine roundsStage undone staged (fun found later => ?_) events
  have plain : (takeHeaders service r b).Plain b (takeHeaders service r b.unread) := headersPlain sound headers
  obtain ⟨request, _, outcome⟩ := plain.parts
  obtain ⟨body, _⟩ := takeHeadersFound headers (outcome ▸ found)
  rw [← request] at body
  exact bodyRounds plain.out.sound body service lines rounds later

theorem lineRounds {lines : Nat} (sound : b.Sound) (line : AtLine r b.unread) (enough : b.unread.length < lines)
    (rounds : Nat) (events : List Event) :
    rounds? service lines (rounds + 4) r b events =
      some (settle service (((takeLine service r b).andThen fun r buffer =>
        (takeHeaders service r buffer).andThen takeBody).after events)) := by
  have undone : r.phase ≠ .done := by simp [line.phase]
  have word : b.unread.length < Word.size := sound.unreadWord
  have staged : stage? service lines r b = some (takeLine service r b) := by
    simp only [stage?, line.phase]
    exact takeLineChecked word line
  refine roundsStage undone staged (fun found later => ?_) events
  have plain : (takeLine service r b).Plain b (takeLine service r b.unread) := linePlain sound
  obtain ⟨request, unread, outcome⟩ := plain.parts
  obtain ⟨same, headers⟩ := takeLineFound line (outcome ▸ found)
  rw [← request, ← unread.trans same] at headers
  exact headersRounds plain.out.sound headers (unread.trans same ▸ enough) rounds later

theorem advanceChecked {rounds lines : Nat} (sound : b.Sound) (pending : Pending r sent b.unread) (stages : 4 ≤ rounds)
    (enough : b.size < lines) : advance? service rounds lines r b = some (advance service r b) := by
  obtain ⟨more, rfl⟩ := Nat.exists_eq_add_of_le' stages
  rw [← OffsetBuffer.unreadLength] at enough
  have clear (t : Turn OffsetBuffer) : t.after [] = t := rfl
  cases pending.waits with
  | line line =>
    simp only [advance?, advance, read, line.phase, lineRounds sound line enough, clear]
  | headers headers =>
    simp only [advance?, advance, read, headers.phase, headersRounds sound headers enough (more + 1), clear]
  | body body _ _ =>
    simp only [advance?, advance, read, body.phase, bodyRounds sound body service lines (more + 2), clear]

theorem Pending.bounded (pending : Pending r sent held) (orderly : Orderly limits r) (word : held.length < Word.size) :
    Bounded limits r held := by
  have spans {n : Nat} (within : r.draft.Within n) (inside : n ≤ held.length) :
      ∀ span ∈ r.draft.spans, span.reach ≤ held.length ∧ (span.slice? held).isSome = true := by
    intro span member
    have reach := Nat.le_trans (within.spans span member) inside
    exact ⟨reach, by rw [Span.sliceInside word reach]; rfl⟩
  cases pending.waits with
  | line line =>
    have within := line.known.within
    refine ⟨line.inside, fun _ => ?_, ?_, orderly.length, fun _ => spans within (List.length_take_le' _ _)⟩
    · exact Nat.le_trans within.mark (List.length_take_le _ _)
    · rw [line.known.untold.1]
      exact Nat.zero_le _
  | headers headers =>
    have within := headers.known.within
    refine ⟨headers.inside, fun _ => ?_, ?_, orderly.length, fun _ => spans within (List.length_take_le' _ _)⟩
    · exact Nat.le_trans within.mark (List.length_take_le _ _)
    · rw [headers.known.noBody]
      exact Nat.zero_le _
  | body body _ _ =>
    have finished := orderly.line (by simp [body.phase])
    have start := orderly.field (by simp [body.phase])
    refine ⟨by simp [body.cursor], fun opened => ?_, body.unfilled, orderly.length, fun reading => ?_⟩
    · simp [Draft.TokenOpen, finished, start] at opened
    · simp [inHead, body.phase] at reading

end Request

namespace Intake
open Request (Bounded advance?)
variable {service : Service}

theorem readingBounded (service : Service) (deeds : List Deed) (contained : Contained service {} deeds) :
    let i := performAll service deeds
    (i.due = false → Bounded service.limits i.request i.buffer.unread) ∧
      ∀ rounds lines, 4 ≤ rounds → i.buffer.size < lines →
        advance? service rounds lines i.request i.buffer = some (i.request.advance service i.buffer) := by
  intro i
  have lives : Lives service i := livesThrough contained
  rcases lives.state with waiting | ended
  · exact ⟨fun _ => waiting.pending.bounded waiting.orderly lives.sound.unreadWord,
      fun rounds lines stages enough => Request.advanceChecked lives.sound waiting.pending stages enough⟩
  · refine ⟨fun waits => ?_, fun rounds lines stages _ => ?_⟩
    · rw [ended.due] at waits
      contradiction
    · obtain ⟨more, rfl⟩ := Nat.exists_eq_add_of_le' stages
      rw [Request.advanceDone ended.done]
      exact Request.roundsDone ended.done service lines (more + 3) []

theorem readingBoundedInValue :
    let service : Service := ⟨⟨[(ascii "a.css", .file [0x2a])]⟩, {}, ChainTable.byteHash⟩
    let deeds : List Deed :=
      [.push (ascii "GET /b HTTP/1.1\r\nContent-Length: 2\n\nxyGET /a.css?q HTTP/1.1\r\nHost: h"), .call, .renew, .call]
    Contained service {} deeds ∧ (performAll service deeds).due = false ∧
      (performAll service deeds).request.draft.field = .value ∧
      (performAll service deeds).request.draft.mark ≤ (performAll service deeds).request.draft.cursor ∧
      advance? service 4 32 (performAll service deeds).request (performAll service deeds).buffer =
        some ((performAll service deeds).request.advance service (performAll service deeds).buffer) := by
  intro service deeds
  have contained : Contained service {} deeds := by decide +kernel
  have reached : (performAll service deeds).due = false ∧ (performAll service deeds).request.draft.field = .value ∧
      (performAll service deeds).buffer.size < 32 := by decide +kernel
  obtain ⟨waits, value, short⟩ := reached
  obtain ⟨bounded, checked⟩ := readingBounded service deeds contained
  exact ⟨contained, waits, value, (bounded waits).mark (.inr (.inr (.inr value))), checked 4 32 (Nat.le_refl _) short⟩

/- The checks are real: a cursor behind the end of the buffer is missed. -/
example : advance? ⟨⟨[]⟩, {}, ChainTable.byteHash⟩ 4 32 { draft := { cursor := 5 } } ({ stored := ascii "GE" } : OffsetBuffer) = none := by
  decide +kernel

end Intake
end StaticHttp
