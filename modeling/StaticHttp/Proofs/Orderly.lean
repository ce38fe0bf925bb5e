import StaticHttp.Proofs.Advance
/-! What a request carries besides its place in the bytes: a length within the limit,
no transfer coding, readers that stand at a start outside their own stage, and a file
unless that is missing. A request that waits carries all of this, and one that is due
has either been served or been denied. -/
namespace StaticHttp

namespace Verdict
variable {α : Type}

def Passes (onward ended : Draft → Prop) : Verdict α → Prop
  | next d => onward d
  | stop d _ => ended d
  | refuse _ _ => True

end Verdict

namespace Draft
variable {α : Type} {step : Draft → Nat → UInt8 → Verdict α} {onward ended : Draft → Prop} {d e : Draft}

theorem scanPasses (parks : ∀ {d : Draft} (position : Nat), onward d → onward (d.parked position))
    (passes : ∀ {d : Draft} (position : Nat) (b : UInt8), onward d → (step d position b).Passes onward ended)
    (holds : onward d) {position : Nat} {bytes : Bytes} {outcome : Outcome α}
    (scanned : scan step d position bytes = (e, outcome)) :
    (outcome = .more → onward e) ∧ (∀ result, outcome = .found result → ended e) := by
  induction bytes generalizing d position with
  | nil =>
    cases scanned
    exact ⟨fun _ => parks position holds, by simp⟩
  | cons b rest ih =>
    have passed := passes position b holds
    simp only [scan] at scanned
    cases judged : step d position b with
    | next next =>
      rw [judged] at passed scanned
      exact ih passed scanned
    | stop stopped result =>
      rw [judged] at passed scanned
      cases scanned
      exact ⟨by simp, fun _ _ => passed⟩
    | refuse refused fault =>
      rw [judged] at scanned
      cases scanned
      exact ⟨by simp, by simp⟩

structure Untold (d : Draft) : Prop where
  fields : d.fields = []
  contentLength : d.contentLength = 0
  field : d.field = .start

theorem lineField (buffer : Bytes) (d : Draft) (position : Nat) (b : UInt8) :
    (lineByte buffer d position b).Passes (fun e => e.field = d.field)
      (fun e => e.line = .finished ∧ (e.field = d.field ∨ e.field = .start)) := by
  cases state : d.line with
  | finished =>
    simp only [lineByte, state]
    exact ⟨state, .inl rfl⟩
  | lineEnd =>
    simp only [lineByte, state]
    split
    · exact ⟨rfl, .inr rfl⟩
    · trivial
  | protocol rest =>
    simp only [lineByte, state, protocolByte]
    repeat' split
    all_goals first | rfl | trivial
  | start | method | beforeTarget | target | beforeVersion | majorFirst | major | minorFirst | minor =>
    simp only [lineByte, state, methodByte, targetByte, majorByte, minorByte]
    repeat' split
    all_goals first | rfl | trivial

theorem linePasses {d : Draft} (buffer : Bytes) (position : Nat) (b : UInt8) (untold : Untold d) :
    (lineByte buffer d position b).Passes Untold (fun e => Untold e ∧ e.line = .finished) := by
  have effect := lineEffect buffer d position b
  have states := lineField buffer d position b
  cases judged : lineByte buffer d position b with
  | next e =>
    rw [judged] at effect states
    have same : e.fields = d.fields ∧ e.contentLength = d.contentLength := by rw [effect.frame]; exact ⟨rfl, rfl⟩
    exact ⟨same.1.trans untold.fields, same.2.trans untold.contentLength, Eq.trans states untold.field⟩
  | stop e result =>
    rw [judged] at effect states
    have same : e.fields = d.fields ∧ e.contentLength = d.contentLength := by rw [effect.frame]; exact ⟨rfl, rfl⟩
    refine ⟨⟨same.1.trans untold.fields, same.2.trans untold.contentLength, ?_⟩, states.1⟩
    rcases states.2 with kept | start
    · exact kept.trans untold.field
    · exact start
  | refuse e fault => trivial

structure Modest (limits : Limits) (d : Draft) : Prop where
  length : d.contentLength ≤ limits.bodyLimit
  uncoded : d.fields.get? .transferEncoding = none
  line : d.line = .finished

variable {limits : Limits}

theorem Modest.same (modest : Modest limits d) (fields : e.fields = d.fields)
    (length : e.contentLength = d.contentLength) (line : e.line = d.line) : Modest limits e :=
  ⟨length ▸ modest.length, fields ▸ modest.uncoded, line.trans modest.line⟩

theorem treatModest {treatment : Treatment} {value : Bytes} (length : d.contentLength ≤ limits.bodyLimit)
    (acts : treat limits d treatment value = (e, none)) :
    treatment ≠ .transferEncoding ∧ e.contentLength ≤ limits.bodyLimit := by
  cases treatment with
  | none =>
    cases acts
    exact ⟨by decide, length⟩
  | connection =>
    simp only [treat] at acts
    split at acts
    all_goals cases acts
    exact ⟨by decide, length⟩
  | contentLength =>
    simp only [treat] at acts
    split at acts
    · rename_i announced
      cases acts
      exact ⟨by decide, (announcedTaken.mp announced).2.2⟩
    · cases acts
  | transferEncoding =>
    simp only [treat] at acts
    split at acts
    all_goals cases acts

theorem applyModest {hash : Bytes → Nat} {buffer : Bytes} (modest : Modest limits d) (acts : d.applyLine hash limits buffer = (e, none)) :
    Modest limits e := by
  have meaning : LineMeaning d e := by simpa only [acts] using lineMeaning hash limits d buffer
  have line : e.line = d.line := by rw [meaning.frame]
  unfold applyLine at acts
  split at acts
  · cases acts
  · split at acts
    · rename_i field _
      unfold accept at acts
      split at acts
      · rename_i value _
        obtain ⟨other, length⟩ := treatModest (d := { d with fields := d.fields.set field d.value }) modest.length acts
        have fields := (treatFrame limits { d with fields := d.fields.set field d.value } field.treatment value).1
        have different : Field.transferEncoding ≠ field := fun same => other (same ▸ rfl)
        rw [acts] at fields
        refine ⟨length, ?_, line.trans modest.line⟩
        rw [fields, FieldSpans.getSetOther d.fields d.value different]
        exact modest.uncoded
      · cases acts
    · cases acts
      exact modest

theorem stopsAtStart {buffer : Bytes} {position : Nat} {b : UInt8} {line : HeaderLine}
    (stopped : headerByte buffer d position b = .stop e line) : e.field = .start := by
  cases state : d.field with
  | start | name | beforeValue | value | valueEnd | blankEnd =>
    simp only [headerByte, state] at stopped
    repeat' split at stopped
    all_goals cases stopped
    all_goals rfl

theorem headPasses {hash : Bytes → Nat} (buffer : Bytes) (position : Nat) (b : UInt8) (modest : Modest limits d) :
    (headByte hash limits buffer d position b).Passes (Modest limits) (fun e => Modest limits e ∧ e.field = .start) := by
  have step := headStep hash limits buffer d position b
  have effect := headerEffect buffer d position b
  have framed {e : Draft} (effect : HeaderEffect buffer d position e) : Modest limits e := by
    rw [effect.frame]
    exact modest.same rfl rfl rfl
  generalize headByte hash limits buffer d position b = verdict at step
  cases step with
  | inside judged =>
    rw [judged] at effect
    exact framed effect
  | line judged acts =>
    rw [judged] at effect
    exact applyModest (framed effect) acts
  | blank judged =>
    rw [judged] at effect
    exact ⟨framed effect, stopsAtStart judged⟩
  | refusedLine => trivial
  | refused => trivial

end Draft

namespace Request
open Draft (Untold Modest lineFaults headerFaults)

structure Orderly (limits : Limits) (r : Request) : Prop where
  length : r.draft.contentLength ≤ limits.bodyLimit
  uncoded : r.draft.fields.get? .transferEncoding = none
  line : r.phase ≠ .requestLine → r.draft.line = .finished
  field : r.phase ≠ .headers → r.draft.field = .start
  supplied : r.phase ≠ .requestLine → r.missing = false → r.resource.isSome = true

structure Served (r : Request) : Prop where
  unfailed : r.failed = false
  status : r.status = .ok
  resource : r.resource.isSome = true
  full : r.draft.bodyRead = r.draft.contentLength
  uncoded : r.draft.fields.get? .transferEncoding = none

structure Denied (r : Request) : Prop where
  failed : r.failed = true
  resource : r.resource = none
  contentType : r.contentType = "text/html"
  status : r.status.code ∈ [400, 404, 413, 431, 500, 501, 505]
  closes : r.keepsAlive = true → r.status = .notFound

variable {service : Service} {limits : Limits} {r : Request} {sent held : Bytes}

theorem freshOrderly (limits : Limits) : Orderly limits {} := by
  refine ⟨Nat.zero_le _, rfl, fun begun => absurd rfl begun, fun _ => rfl, fun begun => absurd rfl begun⟩

theorem rejectDenied (r : Request) (fault : Fault) : Denied (r.reject fault) := by
  have known : fault.status.code ∈ [400, 404, 413, 431, 500, 501, 505] := by
    cases fault <;> simp [Fault.status, Status.code]
  refine ⟨rfl, rfl, rfl, known, fun keeps => ?_⟩
  cases closes : fault.closes with
  | false => exact (Fault.closesIffStatus fault).mp closes
  | true =>
    simp only [reject, closes, if_true] at keeps
    cases keeps

def Supplied {β : Type} (t : Turn β) : Prop :=
  t.outcome = .found () → t.request.missing = false → t.request.resource.isSome = true

theorem lineSupplied (service : Service) (r : Request) (held : Bytes) : Supplied (takeLine service r held) := by
  simp only [takeLine, locate]
  split
  · split
    · simp [Supplied]
    · split
      · split
        all_goals simp [Supplied]
      · simp [Supplied]
  · rename_i other _
    exact fun found => absurd found other

structure Follows (limits : Limits) (t : Turn Bytes) : Prop where
  more : t.outcome = .more → Orderly limits t.request
  found : t.outcome = .found () → ∃ q : Request, Orderly limits q ∧ q.phase = .body ∧ q.failed = false ∧ q.status = .ok ∧
    q.draft.bodyRead = q.draft.contentLength ∧ t.request = q.conclude.1

theorem lineOrderly (line : AtLine r held) (orderly : Orderly limits r)
    (unrefused : ∀ fault, (takeLine service r held).outcome ≠ .failed fault) :
    Orderly limits (takeLine service r held).request := by
  have supplied := lineSupplied service r held
  have untold : Untold r.draft :=
    ⟨line.known.untold.2.1, line.known.untold.2.2, orderly.field (by simp [line.phase])⟩
  have passed {d : Draft} {outcome : Outcome Unit} (read : r.draft.readRequestLine held = (d, outcome)) :=
    Draft.scanPasses (fun _ untold => ⟨untold.fields, untold.contentLength, untold.field⟩)
      (fun position b => Draft.linePasses held position b) untold read
  have turn : LineTurn r held (takeLine service r held) := lineTurn line
  generalize takeLine service r held = t at turn supplied unrefused
  cases turn with
  | more read =>
    obtain ⟨fields, length, field⟩ := (passed read).1 rfl
    refine ⟨?_, ?_, fun begun => absurd line.phase begun, fun _ => field, fun begun => absurd line.phase begun⟩
    · exact Nat.le_trans (Nat.le_of_eq length) (Nat.zero_le _)
    · simp only [fields]
      rfl
  | found read =>
    obtain ⟨⟨fields, length, _⟩, finished⟩ := (passed read).2 () rfl
    refine ⟨?_, ?_, fun _ => finished, fun other => absurd rfl other, fun _ => supplied rfl⟩
    · exact Nat.le_trans (Nat.le_of_eq length) (Nat.zero_le _)
    · simp only [fields]
      rfl
  | failed _ fault => exact absurd rfl (unrefused fault)

theorem headersOrderly (headers : AtHeaders r held) (orderly : Orderly service.limits r)
    (unrefused : ∀ fault, (takeHeaders service r held).outcome ≠ .failed fault) :
    Orderly service.limits (takeHeaders service r held).request := by
  have begun : r.phase ≠ .requestLine := by simp [headers.phase]
  have modest : Modest service.limits r.draft := ⟨orderly.length, orderly.uncoded, orderly.line begun⟩
  have passed {d : Draft} {outcome : Outcome Unit} (read : r.draft.readHeaders service.hash service.limits held = (d, outcome)) :=
    Draft.scanPasses (fun _ modest => modest.same rfl rfl rfl)
      (fun position b => Draft.headPasses held position b) modest read
  have turn : HeadersTurn service.hash service.limits r held (takeHeaders service r held) := headersTurn headers
  generalize takeHeaders service r held = t at turn unrefused
  cases turn with
  | more read =>
    obtain ⟨length, uncoded, finished⟩ := (passed read).1 rfl
    exact ⟨length, uncoded, fun _ => finished, fun other => absurd headers.phase other, fun _ => orderly.supplied begun⟩
  | found read =>
    obtain ⟨⟨length, uncoded, finished⟩, start⟩ := (passed read).2 () rfl
    exact ⟨length, uncoded, fun _ => finished, fun _ => start, fun _ => orderly.supplied begun⟩
  | failed _ fault => exact absurd rfl (unrefused fault)

theorem bodyFollows (body : AtBody r) (orderly : Orderly limits r) (status : r.status = .ok)
    (unfailed : r.failed = false) : Follows limits (read service r held) := by
  have counted (n : Nat) : Orderly limits (r.counted n) :=
    ⟨orderly.length, orderly.uncoded, orderly.line, orderly.field, orderly.supplied⟩
  have turn : BodyTurn r held (read service r held) := by
    rw [readBody body]
    exact bodyTurn body
  generalize read service r held = t at turn
  cases turn with
  | more => exact ⟨fun _ => counted _, by simp⟩
  | found there whole => exact ⟨by simp, fun _ => ⟨_, counted _, body.phase, unfailed, status, whole, rfl⟩⟩

theorem Follows.logged {t : Turn Bytes} (follows : Follows limits t) (events : List Event) :
    Follows limits { t with events := events } := ⟨follows.more, follows.found⟩

theorem Follows.through {t : Turn Bytes} {next : Request → Bytes → Turn Bytes}
    (stopped : (∀ fault, t.outcome ≠ .failed fault) → Orderly limits t.request)
    (onward : t.outcome = .found () → Orderly limits t.request → Follows limits (next t.request t.buffer)) :
    Follows limits (t.andThen next) := by
  by_cases found : t.outcome = .found ()
  · rw [Turn.andThenFound found]
    exact (onward found (stopped (by simp [found]))).logged _
  · rw [Turn.andThenStopped found]
    exact ⟨fun more => stopped (by simp [more]), fun ended => absurd ended found⟩

theorem headersFollows (headers : AtHeaders r held) (orderly : Orderly service.limits r) (status : r.status = .ok)
    (unfailed : r.failed = false) : Follows service.limits (read service r held) := by
  rw [readHeaders headers]
  refine .through (headersOrderly headers orderly) fun found further => ?_
  obtain ⟨body, _⟩ := takeHeadersFound headers found
  have turn : HeadersTurn service.hash service.limits r held (takeHeaders service r held) := headersTurn headers
  generalize takeHeaders service r held = t at turn found body further ⊢
  cases turn with
  | found => exact bodyFollows body further status unfailed
  | more => contradiction
  | failed => contradiction

theorem lineFollows (line : AtLine r held) (orderly : Orderly service.limits r) (status : r.status = .ok)
    (unfailed : r.failed = false) : Follows service.limits (read service r held) := by
  rw [readLine line]
  refine .through (lineOrderly line orderly) fun found further => ?_
  obtain ⟨same, headers⟩ := takeLineFound line found
  have turn : LineTurn r held (takeLine service r held) := lineTurn line
  generalize takeLine service r held = t at turn found same headers further ⊢
  cases turn with
  | found => exact headersFollows headers further status unfailed
  | more => contradiction
  | failed => contradiction

theorem Pending.follows (pending : Pending r sent held) (orderly : Orderly service.limits r) :
    Follows service.limits (read service r held) := by
  cases pending.waits with
  | line line => exact lineFollows line orderly pending.status pending.unfailed
  | headers headers => exact headersFollows headers orderly pending.status pending.unfailed
  | body body => exact bodyFollows body orderly pending.status pending.unfailed

theorem concludeSettled {q : Request} (orderly : Orderly limits q) (begun : q.phase = .body) (unfailed : q.failed = false)
    (status : q.status = .ok) (full : q.draft.bodyRead = q.draft.contentLength) :
    Served q.conclude.1 ∨ Denied q.conclude.1 := by
  unfold conclude
  split
  · exact .inr (rejectDenied _ _)
  · rename_i there
    exact .inl ⟨unfailed, status, orderly.supplied (by simp [begun]) (Bool.eq_false_iff.mpr there), full, orderly.uncoded⟩

theorem advanceSettled (pending : Pending r sent held) (orderly : Orderly service.limits r) :
    ((advance service r held).due = false → Orderly service.limits (advance service r held).request) ∧
      ((advance service r held).due = true →
        Served (advance service r held).request ∨ Denied (advance service r held).request) := by
  have follows : Follows service.limits (read service r held) := pending.follows orderly
  rw [advance]
  generalize read service r held = t at follows
  cases ended : t.outcome with
  | found =>
    obtain ⟨q, concluded, begun, unfailed, status, full, same⟩ := follows.found ended
    simp only [settle, ended, same]
    exact ⟨by simp, fun _ => concludeSettled concluded begun unfailed status full⟩
  | failed fault =>
    simp only [settle, ended]
    exact ⟨by simp, fun _ => .inr (rejectDenied _ fault)⟩
  | more =>
    have still := follows.more ended
    simp only [settle, ended]
    split
    · exact ⟨by simp, fun _ => .inr (rejectDenied _ _)⟩
    · exact ⟨fun _ => still, by simp⟩

end Request
end StaticHttp
