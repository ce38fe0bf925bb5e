import StaticHttp.Request
import StaticHttp.Proofs.RequestLine
import StaticHttp.Proofs.Headers
/-! The stages of a request over a plain byte string: how each of them can end,
and where a request that waits for more bytes stands in those it still holds. -/
namespace StaticHttp

namespace Draft
open HeadEnd (IsHead)

theorem takeSnoc (text : Bytes) (b : UInt8) (after : Bytes) :
    (text ++ b :: after).take (text ++ [b]).length = text ++ [b] := by
  have parts : text ++ b :: after = text ++ [b] ++ after := by simp
  rw [parts, List.take_left]

theorem readLineFound {d e : Draft} {buffer : Bytes} (inside : d.cursor ≤ buffer.length)
    (inLine : InLine d (buffer.take d.cursor)) (read : d.readRequestLine buffer = (e, .found ())) :
    e.cursor ≤ buffer.length ∧ InHead e (buffer.take e.cursor) := by
  obtain ⟨f, text, b, after, rfl, known, stopped⟩ := resumeFound lineSteady inside inLine read
  obtain ⟨_, lf, last⟩ := lineStop known.unfinished stopped
  have effect := lineEffect (text ++ [b]) f text.length b
  rw [stopped] at effect
  have cursor : e.cursor = (text ++ [b]).length := by simp [last]
  have field : e.field = .start := by rw [last]
  have untold : e.bodyRead = 0 ∧ e.fields = [] ∧ e.contentLength = 0 := by rw [last]; exact known.untold
  refine ⟨by simp [cursor], ?_⟩
  rw [cursor, takeSnoc]
  subst lf
  refine ⟨effect.within known.within, ?_, HeadEnd.openLine known.oneLine, untold.1, .inl ⟨?_, untold.2.2⟩⟩
  · rw [field]
    exact (HeadEnd.endsInLf text Byte.lf).mpr rfl
  · rw [untold.2.1]
    rfl

theorem readLineFailed {d e : Draft} {buffer : Bytes} {fault : Fault} (inside : d.cursor ≤ buffer.length)
    (inLine : InLine d (buffer.take d.cursor)) (read : d.readRequestLine buffer = (e, .failed fault)) :
    fault ∈ lineFaults := by
  obtain ⟨_, _, _, _, refused⟩ := resumeFailed lineSteady inside inLine read
  exact (lineRefuse refused).2

theorem readHeadersFound {hash : Bytes → Nat} {limits : Limits} {d e : Draft} {buffer : Bytes} (inside : d.cursor ≤ buffer.length)
    (inHead : InHead d (buffer.take d.cursor)) (read : d.readHeaders hash limits buffer = (e, .found ())) :
    e.cursor ≤ buffer.length ∧ IsHead (buffer.take e.cursor) ∧ e.Within e.cursor ∧
      e.bodyRead = 0 ∧ LengthTold e (buffer.take e.cursor) := by
  obtain ⟨f, text, b, after, rfl, known, stopped⟩ := resumeFound (headSteady hash limits) inside inHead read
  obtain ⟨isHead, cursor, within, noBody, told⟩ := known.stop stopped
  refine ⟨by simp [cursor], ?_, cursor ▸ within, noBody, ?_⟩
  · rw [cursor, takeSnoc]
    exact isHead
  · rw [cursor, takeSnoc]
    exact told

theorem readHeadersFailed {hash : Bytes → Nat} {limits : Limits} {d e : Draft} {buffer : Bytes} {fault : Fault}
    (inside : d.cursor ≤ buffer.length) (inHead : InHead d (buffer.take d.cursor))
    (read : d.readHeaders hash limits buffer = (e, .failed fault)) : fault ∈ headerFaults := by
  obtain ⟨_, _, _, _, refused⟩ := resumeFailed (headSteady hash limits) inside inHead read
  exact headRefuse refused

end Draft

namespace Turn

theorem andThenFound {t : Turn Bytes} (found : t.outcome = .found ()) (next : Request → Bytes → Turn Bytes) :
    t.andThen next = { next t.request t.buffer with
      events := t.events ++ (next t.request t.buffer).events } := by
  simp only [Turn.andThen, found]

theorem andThenStopped {t : Turn Bytes} (stopped : t.outcome ≠ .found ()) (next : Request → Bytes → Turn Bytes) :
    t.andThen next = t := by
  unfold Turn.andThen
  split
  · contradiction
  · rfl

theorem andThenCongr {t : Turn Bytes} {next other : Request → Bytes → Turn Bytes}
    (same : t.outcome = .found () → next t.request t.buffer = other t.request t.buffer) :
    t.andThen next = t.andThen other := by
  by_cases found : t.outcome = .found ()
  · rw [andThenFound found, andThenFound found, same found]
  · rw [andThenStopped found, andThenStopped found]

end Turn

namespace Request
open Draft (InLine InHead lineFaults headerFaults)

structure AtLine (r : Request) (held : Bytes) : Prop where
  phase : r.phase = .requestLine
  inside : r.draft.cursor ≤ held.length
  known : InLine r.draft (held.take r.draft.cursor)

structure AtHeaders (r : Request) (held : Bytes) : Prop where
  phase : r.phase = .headers
  inside : r.draft.cursor ≤ held.length
  known : InHead r.draft (held.take r.draft.cursor)

structure AtBody (r : Request) : Prop where
  phase : r.phase = .body
  cursor : r.draft.cursor = 0
  unfilled : r.draft.bodyRead ≤ r.draft.contentLength

variable {service : Service} {r : Request} {held : Bytes}

theorem freshAtLine (held : Bytes) : AtLine {} held := ⟨rfl, Nat.zero_le _, Draft.freshInLine⟩

theorem AtLine.append (line : AtLine r held) (rest : Bytes) : AtLine r (held ++ rest) := by
  refine ⟨line.phase, Nat.le_trans line.inside (by simp), ?_⟩
  rw [List.take_append_of_le_length line.inside]
  exact line.known

theorem AtHeaders.append (headers : AtHeaders r held) (rest : Bytes) : AtHeaders r (held ++ rest) := by
  refine ⟨headers.phase, Nat.le_trans headers.inside (by simp), ?_⟩
  rw [List.take_append_of_le_length headers.inside]
  exact headers.known

inductive LineTurn (r : Request) (held : Bytes) : Turn Bytes → Prop where
  | more {d : Draft} (read : r.draft.readRequestLine held = (d, .more)) :
      LineTurn r held ⟨{ r with draft := d }, held, .more, []⟩
  | found {d : Draft} (read : r.draft.readRequestLine held = (d, .found ())) (keepAlive : Bool)
      (resource : Option Opened) (contentType : String) (missing : Bool) (events : List Event) :
      LineTurn r held ⟨{ r with
        draft := { d with keepAlive := keepAlive }, resource := resource, contentType := contentType
        missing := missing, phase := .headers }, held, .found (), events⟩
  | failed (d : Draft) (fault : Fault) (known : fault ∈ lineFaults) (events : List Event) :
      LineTurn r held ⟨{ r with draft := d }, held, .failed fault, events⟩

theorem lineTurn (line : AtLine r held) : LineTurn r held (takeLine service r held) := by
  simp only [takeLine, ByteQueue.unreadBytes]
  split
  · rename_i d read
    split
    · exact .failed d .unsupportedVersion (by decide) []
    · split
      · simp only [locate, ByteQueue.unreadBytes]
        split
        · rename_i opened _
          exact .found read _ (some opened) _ r.missing _
        · exact .found read _ r.resource r.contentType true _
        · rename_i fault other refused
          rcases Site.findFault refused with rfl | rfl
          · exact absurd rfl other
          · exact .failed _ .invalidUrl (by decide) _
      · exact .failed _ .invalidUrl (by decide) []
  · rename_i d outcome other read
    cases outcome with
    | more => exact .more read
    | found result => exact absurd rfl other
    | failed fault => exact .failed d fault (Draft.readLineFailed line.inside line.known read) []

theorem takeLineMore (line : AtLine r held) (more : (takeLine service r held).outcome = .more) :
    ∃ d, r.draft.readRequestLine held = (d, .more) ∧
      takeLine service r held = ⟨{ r with draft := d }, held, .more, []⟩ ∧
      d.cursor = held.length ∧ AtLine { r with draft := d } held := by
  have turn : LineTurn r held (takeLine service r held) := lineTurn line
  generalize takeLine service r held = t at turn more
  cases turn with
  | more read =>
    obtain ⟨cursor, known, _⟩ := Draft.resumeMore Draft.lineSteady line.inside line.known read
    refine ⟨_, read, rfl, cursor, line.phase, Nat.le_of_eq cursor, ?_⟩
    rw [cursor, List.take_length]
    exact known
  | found => contradiction
  | failed => contradiction

theorem takeLineFound (line : AtLine r held) (found : (takeLine service r held).outcome = .found ()) :
    (takeLine service r held).buffer = held ∧ AtHeaders (takeLine service r held).request held := by
  have turn : LineTurn r held (takeLine service r held) := lineTurn line
  generalize takeLine service r held = t at turn found
  cases turn with
  | found read =>
    obtain ⟨short, known⟩ := Draft.readLineFound line.inside line.known read
    have within := known.within
    exact ⟨rfl, rfl, short, ⟨within.mark, within.name, within.value, within.target, within.fields⟩,
      known.stands, known.noBlank, known.noBody, known.told⟩
  | more => contradiction
  | failed => contradiction

inductive HeadersTurn (hash : Bytes → Nat) (limits : Limits) (r : Request) (held : Bytes) : Turn Bytes → Prop where
  | more {d : Draft} (read : r.draft.readHeaders hash limits held = (d, .more)) :
      HeadersTurn hash limits r held ⟨{ r with draft := d }, held, .more, []⟩
  | found {d : Draft} (read : r.draft.readHeaders hash limits held = (d, .found ())) (events : List Event) :
      HeadersTurn hash limits r held
        ⟨{ r with draft := d.parked 0, phase := .body }, held.drop d.cursor, .found (), events⟩
  | failed (d : Draft) (fault : Fault) (known : fault ∈ headerFaults) :
      HeadersTurn hash limits r held ⟨{ r with draft := d }, held, .failed fault, []⟩

theorem headersTurn (headers : AtHeaders r held) :
    HeadersTurn service.hash service.limits r held (takeHeaders service r held) := by
  simp only [takeHeaders, ByteQueue.unreadBytes, ByteQueue.consumeBytes]
  split
  · rename_i d read
    exact .found read _
  · rename_i d outcome other read
    cases outcome with
    | more => exact .more read
    | found result => exact absurd rfl other
    | failed fault => exact .failed d fault (Draft.readHeadersFailed headers.inside headers.known read)

theorem takeHeadersMore (headers : AtHeaders r held) (more : (takeHeaders service r held).outcome = .more) :
    ∃ d, r.draft.readHeaders service.hash service.limits held = (d, .more) ∧
      takeHeaders service r held = ⟨{ r with draft := d }, held, .more, []⟩ ∧
      d.cursor = held.length ∧ AtHeaders { r with draft := d } held := by
  have turn : HeadersTurn service.hash service.limits r held (takeHeaders service r held) := headersTurn headers
  generalize takeHeaders service r held = t at turn more
  cases turn with
  | more read =>
    obtain ⟨cursor, known, _⟩ :=
      Draft.resumeMore (Draft.headSteady service.hash service.limits) headers.inside headers.known read
    refine ⟨_, read, rfl, cursor, headers.phase, Nat.le_of_eq cursor, ?_⟩
    rw [cursor, List.take_length]
    exact known
  | found => contradiction
  | failed => contradiction

theorem takeHeadersFound (headers : AtHeaders r held)
    (found : (takeHeaders service r held).outcome = .found ()) :
    AtBody (takeHeaders service r held).request ∧
      (takeHeaders service r held).request.draft.bodyRead = 0 ∧
      ∃ head, HeadEnd.IsHead head ∧ held = head ++ (takeHeaders service r held).buffer ∧
        Draft.LengthTold (takeHeaders service r held).request.draft head := by
  have turn : HeadersTurn service.hash service.limits r held (takeHeaders service r held) := headersTurn headers
  generalize takeHeaders service r held = t at turn found
  cases turn with
  | @found d read events =>
    obtain ⟨_, isHead, _, noBody, told⟩ := Draft.readHeadersFound headers.inside headers.known read
    refine ⟨⟨rfl, rfl, ?_⟩, noBody, held.take d.cursor, isHead, (List.take_append_drop d.cursor held).symm, told⟩
    exact Nat.le_trans (Nat.le_of_eq noBody) (Nat.zero_le _)
  | more => contradiction
  | failed => contradiction

def counted (r : Request) (n : Nat) : Request :=
  { r with draft := { r.draft with bodyRead := r.draft.bodyRead + n, cursor := 0 } }

theorem countedTwice (r : Request) (n m : Nat) : (r.counted n).counted m = r.counted (n + m) := by
  simp only [counted, Nat.add_assoc]

theorem takeBodyWhole {n : Nat} (cursor : r.draft.cursor = 0) (there : n ≤ held.length)
    (whole : r.draft.bodyRead + n = r.draft.contentLength) :
    takeBody r held = ⟨(r.counted n).conclude.1, held.drop n, .found (), (r.counted n).conclude.2⟩ := by
  have lacking : Word.sub r.draft.contentLength r.draft.bodyRead = n := by
    rw [Word.subOrdered (by omega)]
    omega
  simp only [takeBody, Draft.readBody, ByteQueue.unreadBytes, ByteQueue.consumeBytes, lacking, cursor,
    Nat.sub_zero, Nat.zero_add, Nat.min_eq_left there, whole, ge_iff_le, Nat.le_refl, if_true, counted]

theorem takeBodyShort (cursor : r.draft.cursor = 0)
    (lacking : r.draft.bodyRead + held.length < r.draft.contentLength) :
    takeBody r held = ⟨r.counted held.length, [], .more, []⟩ := by
  have rest : held.length ≤ Word.sub r.draft.contentLength r.draft.bodyRead := by
    rw [Word.subOrdered (by omega)]
    omega
  simp only [takeBody, Draft.readBody, ByteQueue.unreadBytes, ByteQueue.consumeBytes, cursor,
    Nat.sub_zero, Nat.zero_add, Nat.min_eq_right rest, if_neg (Nat.not_le.mpr lacking), ge_iff_le,
    List.drop_length, counted]

inductive BodyTurn (r : Request) (held : Bytes) : Turn Bytes → Prop where
  | more (lacking : r.draft.bodyRead + held.length < r.draft.contentLength) :
      BodyTurn r held ⟨r.counted held.length, [], .more, []⟩
  | found {n : Nat} (there : n ≤ held.length) (whole : r.draft.bodyRead + n = r.draft.contentLength) :
      BodyTurn r held
        ⟨(r.counted n).conclude.1, held.drop n, .found (), (r.counted n).conclude.2⟩

theorem bodyTurn (body : AtBody r) : BodyTurn r held (takeBody r held) := by
  have unfilled := body.unfilled
  by_cases lacking : r.draft.bodyRead + held.length < r.draft.contentLength
  · rw [takeBodyShort body.cursor lacking]
    exact .more lacking
  · have there : r.draft.contentLength - r.draft.bodyRead ≤ held.length := by omega
    have whole : r.draft.bodyRead + (r.draft.contentLength - r.draft.bodyRead) = r.draft.contentLength := by
      omega
    rw [takeBodyWhole body.cursor there whole]
    exact .found there whole

theorem takeBodyMore (body : AtBody r) (more : (takeBody r held).outcome = .more) :
    r.draft.bodyRead + held.length < r.draft.contentLength ∧
      takeBody r held = ⟨r.counted held.length, [], .more, []⟩ ∧ AtBody (r.counted held.length) := by
  have turn : BodyTurn r held (takeBody r held) := bodyTurn body
  generalize takeBody r held = t at turn more
  cases turn with
  | more lacking => exact ⟨lacking, rfl, body.phase, rfl, Nat.le_of_lt lacking⟩
  | found => contradiction

theorem readBody (body : AtBody r) : read service r held = takeBody r held := by
  simp only [read, body.phase]

theorem readHeaders (headers : AtHeaders r held) :
    read service r held = (takeHeaders service r held).andThen (read service) := by
  simp only [read, headers.phase]
  refine Turn.andThenCongr fun found => ?_
  exact (readBody (takeHeadersFound headers found).1).symm

theorem readLine (line : AtLine r held) :
    read service r held = (takeLine service r held).andThen (read service) := by
  simp only [read, line.phase]
  refine Turn.andThenCongr fun found => ?_
  obtain ⟨same, headers⟩ := takeLineFound line found
  rw [same, readHeaders headers]
  refine Turn.andThenCongr fun onward => ?_
  exact (readBody (takeHeadersFound headers onward).1).symm

end Request
end StaticHttp
