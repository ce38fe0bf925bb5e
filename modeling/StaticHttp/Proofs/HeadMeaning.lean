import StaticHttp.Proofs.Deliveries
import StaticHttp.Proofs.HeaderText
/-! What an accepted head means, whatever deliveries it arrives in: the request
carries what its header lines say, the last line of each name deciding. The first
line that is refused ends the request, and nothing behind that line has any effect. -/
namespace StaticHttp

namespace Draft
variable {hash : Bytes → Nat} {limits : Limits} {buffer : Bytes} {d e : Draft} {position : Nat}

theorem scanBlankLine {blank : Bytes} (shape : blank = [Byte.lf] ∨ blank = [Byte.cr, Byte.lf]) (start : d.field = .start)
    (rest : Bytes) :
    scan (headByte hash limits buffer) d position (blank ++ rest) =
      ({ d with field := .start, cursor := position + blank.length }, .found ()) := by
  obtain ⟨f, last, scanned, stopped⟩ := scanBlank (headGoesOn limits buffer) shape start position rest
  have ended : headByte hash limits buffer f last Byte.lf =
      .stop { d with field := .start, cursor := position + blank.length } () := by
    simp only [headByte, stopped]
  exact scanned.trans (scanStop ended rest)

theorem stopsAtLf {b : UInt8} {line : HeaderLine} (stopped : headerByte buffer d position b = .stop e line) :
    b = Byte.lf := by
  cases state : d.field with
  | start =>
    simp only [headerByte, state] at stopped
    split at stopped
    · cases stopped
    · split at stopped
      · assumption
      · split at stopped
        · cases stopped
        · cases stopped
  | name | beforeValue =>
    simp only [headerByte, state] at stopped
    split at stopped
    · cases stopped
    · split at stopped
      · cases stopped
      · cases stopped
  | value =>
    simp only [headerByte, state] at stopped
    split at stopped
    · cases stopped
    · split at stopped
      · assumption
      · cases stopped
  | valueEnd | blankEnd =>
    simp only [headerByte, state] at stopped
    split at stopped
    · assumption
    · cases stopped

theorem scanQuiet {text : Bytes} {outcome : Outcome Unit} (quiet : Byte.lf ∉ text)
    (scanned : scan (headByte hash limits buffer) d position text = (e, outcome)) :
    (∃ fault, outcome = .failed fault) ∨ (outcome = .more ∧
      e.fields = d.fields ∧ e.keepAlive = d.keepAlive ∧ e.contentLength = d.contentLength) := by
  induction text generalizing d position with
  | nil =>
    cases scanned
    exact .inr ⟨rfl, rfl, rfl, rfl⟩
  | cons b text ih =>
    have step := headStep hash limits buffer d position b
    have effect := headerEffect buffer d position b
    simp only [scan] at scanned
    generalize headByte hash limits buffer d position b = verdict at step scanned
    cases step with
    | inside judged =>
      rw [judged] at effect
      rcases ih (List.not_mem_of_not_mem_cons quiet) scanned with refused | ⟨more, fields, keepAlive, length⟩
      · exact .inl refused
      · rw [fields, keepAlive, length, effect.frame]
        exact .inr ⟨more, rfl, rfl, rfl⟩
    | line judged => exact absurd (stopsAtLf judged).symm (List.ne_of_not_mem_cons quiet)
    | blank judged => exact absurd (stopsAtLf judged).symm (List.ne_of_not_mem_cons quiet)
    | refusedLine judged => exact absurd (stopsAtLf judged).symm (List.ne_of_not_mem_cons quiet)
    | refused judged =>
      cases scanned
      exact .inl ⟨_, rfl⟩

section
variable (hash) {version : Version} {lines : List FieldText} {before rest : Bytes} (cursor : d.cursor = before.length)
  (start : d.field = .start) (word : buffer.length < Word.size) (means : FieldText.Means version [] buffer d)
include cursor start word means

theorem headersRead (text : buffer = before ++ (lines.flatMap FieldText.text ++ rest))
    (passes : ∀ line ∈ lines, line.refusal limits = none) :
    ∃ e, e.field = .start ∧ FieldText.Means version lines buffer e ∧
      d.readHeaders hash limits buffer =
        scan (headByte hash limits buffer) e (before ++ lines.flatMap FieldText.text).length rest := by
  subst text
  obtain ⟨e, began, meant, scanned⟩ := FieldText.scanLines limits word start passes means
  refine ⟨e, began, meant, ?_⟩
  rw [readHeaders, resume, cursor, List.drop_left, scanned]

theorem headersFound {blank body : Bytes} (text : buffer = before ++ (lines.flatMap FieldText.text ++ (blank ++ body)))
    (shape : blank = [Byte.lf] ∨ blank = [Byte.cr, Byte.lf]) (passes : ∀ line ∈ lines, line.refusal limits = none) :
    ∃ e, d.readHeaders hash limits buffer = (e, .found ()) ∧ buffer.drop e.cursor = body ∧
      FieldText.Means version lines buffer e := by
  obtain ⟨e, began, meant, read⟩ := headersRead hash cursor start word means text passes
  have head : buffer = (before ++ lines.flatMap FieldText.text ++ blank) ++ body := by
    simp only [text, List.append_assoc]
  refine ⟨_, read.trans (scanBlankLine shape began body), ?_, meant.same ⟨rfl, rfl, rfl⟩⟩
  simp only [← List.length_append]
  rw [head, List.drop_left]

theorem headersQuiet {outcome : Outcome Unit} (text : buffer = before ++ (lines.flatMap FieldText.text ++ rest))
    (passes : ∀ line ∈ lines, line.refusal limits = none) (quiet : Byte.lf ∉ rest)
    (ended : d.readHeaders hash limits buffer = (e, outcome)) :
    (∃ fault, outcome = .failed fault) ∨ (outcome = .more ∧ FieldText.Means version lines buffer e) := by
  obtain ⟨f, began, meant, read⟩ := headersRead hash cursor start word means text passes
  rcases scanQuiet quiet (read.symm.trans ended) with refused | ⟨more, same⟩
  · exact .inl refused
  · exact .inr ⟨more, meant.same same⟩

theorem headersRefused {line : FieldText} {status : Status}
    (text : buffer = before ++ (lines.flatMap FieldText.text ++ (line.text ++ rest)))
    (passes : ∀ line ∈ lines, line.refusal limits = none) (refused : line.refusal limits = some status) :
    ∃ e fault, d.readHeaders hash limits buffer = (e, .failed fault) ∧ fault.status = status ∧ fault.closes = true ∧
      FieldText.Noted (lines ++ [line]) buffer e.fields ∧ e.contentLength = FieldText.length lines := by
  obtain ⟨f, began, meant, read⟩ := headersRead hash cursor start word means text passes
  rw [read]
  rw [← List.append_assoc] at text
  subst text
  obtain ⟨acted, acts, _, stopped⟩ := FieldText.scanActing hash limits line word began meant
  rw [stopped]
  cases acts with
  | accepted passes =>
    rw [refused] at passes
    cases passes
  | refused same closes noted told =>
    rw [refused] at same
    exact ⟨_, _, rfl, (Option.some.inj same).symm, closes, noted, told⟩

end

end Draft

namespace Site

theorem findValid {site : Site} {path : Bytes} {fault : Fault} (valid : Utf8.valid path = true)
    (refused : site.find path = .error fault) : fault = .notFound := by
  simp only [find, valid, if_true] at refused
  repeat' split at refused
  all_goals cases refused
  all_goals rfl

end Site

namespace FieldText

structure Refused (passed : List FieldText) (line : FieldText) (status : Status) (sent : Bytes) (p : Progress Bytes) :
    Prop where
  due : p.due = true
  status : p.request.status = status
  failed : p.request.failed = true
  closes : p.request.keepsAlive = false
  held : p.buffer = sent
  noted : Noted (passed ++ [line]) sent p.request.draft.fields
  contentLength : p.request.draft.contentLength = length passed

structure Accepted (version : Version) (lines : List FieldText) (body sent : Bytes) (p : Progress Bytes) : Prop where
  status : p.request.status = .ok ∨ p.request.status = .notFound
  due : p.due = decide (length lines ≤ body.length)
  left : p.buffer = body.drop (length lines)
  means : Means version lines sent p.request.draft

structure Fate (limits : Limits) (version : Version) (lines : List FieldText) (tail sent : Bytes)
    (p : Progress Bytes) : Prop where
  refused : ∀ passed line later status, lines = passed ++ line :: later →
    (∀ l ∈ passed, l.refusal limits = none) → line.refusal limits = some status → Refused passed line status sent p
  accepted : (∀ l ∈ lines, l.refusal limits = none) →
    ∀ blank body, blank = [Byte.lf] ∨ blank = [Byte.cr, Byte.lf] → tail = blank ++ body →
      Accepted version lines body sent p
  held : (∀ l ∈ lines, l.refusal limits = none) → Byte.lf ∉ tail → p.due = false →
    p.buffer = sent ∧ Means version lines sent p.request.draft

end FieldText

namespace Request
variable {service : Service} {r : Request} {sent : Bytes}

structure Headed (line : RequestText) (sent : Bytes) (r : Request) : Prop where
  phase : r.phase = .headers
  status : r.status = .ok
  cursor : r.draft.cursor = line.text.length
  start : r.draft.field = .start
  means : FieldText.Means line.version [] sent r.draft

theorem meansNothing {version : Version} {d : Draft} (fields : d.fields = []) (keepAlive : d.keepAlive = version.keepsAlive)
    (length : d.contentLength = 0) : FieldText.Means version [] sent d := by
  refine ⟨⟨fun f => ?_, fun f => ?_⟩, keepAlive, length⟩
  · rw [fields]
    rfl
  · rw [fields]
    rfl

theorem lineTaken (service : Service) (line : RequestText) {rest : Bytes} (text : sent = line.text ++ rest)
    (word : sent.length < Word.size) (valid : Utf8.valid line.path = true) :
    ∃ r events, takeLine service {} sent = ⟨r, sent, .found (), events⟩ ∧ Headed line sent r := by
  obtain ⟨mark, target, read, sliced⟩ := line.readLine rest (text ▸ word)
  rw [← text] at read sliced
  have major : ¬ line.version.major ≠ 1 := by simp [line.versionOne]
  simp only [takeLine, ByteQueue.unreadBytes, read, if_neg major, sliced, locate]
  cases found : service.site.find line.path with
  | ok opened =>
    refine ⟨_, _, rfl, ?_, ?_, ?_, ?_, ?_⟩
    · rfl
    · rfl
    · dsimp only
    · rfl
    · exact meansNothing rfl rfl rfl
  | error fault =>
    obtain rfl := Site.findValid valid found
    refine ⟨_, _, rfl, ?_, ?_, ?_, ?_, ?_⟩
    · rfl
    · rfl
    · dsimp only
    · rfl
    · exact meansNothing rfl rfl rfl

theorem bodySettled {version : Version} {lines : List FieldText} {held : Bytes} {t : Turn Bytes}
    (turn : BodyTurn r held t) (phase : r.phase = .body) (status : r.status = .ok) (unread : r.draft.bodyRead = 0)
    (means : FieldText.Means version lines sent r.draft) (events : List Event) :
    FieldText.Accepted version lines held sent (settle service { t with events := events }) := by
  have length := means.contentLength
  cases turn with
  | more lacking =>
    have inBody : (r.counted held.length).inHead = false := by
      simp [inHead, counted, phase]
    rw [unread, length, Nat.zero_add] at lacking
    simp only [settle, inBody, Bool.false_and, Bool.false_eq_true, if_false]
    exact ⟨.inl status, (decide_eq_false (Nat.not_le.mpr lacking)).symm,
      (List.drop_eq_nil_of_le (Nat.le_of_lt lacking)).symm, means.same ⟨rfl, rfl, rfl⟩⟩
  | @found n there whole =>
    have concluded := concludeStatus (r.counted n) status
    obtain ⟨draft, _⟩ := concludeDraft (r.counted n)
    rw [unread, length, Nat.zero_add] at whole
    subst whole
    refine ⟨concluded, (decide_eq_true there).symm, rfl, ?_⟩
    simp only [settle, draft]
    exact means.same ⟨rfl, rfl, rfl⟩

theorem takeHeadersStopped {held : Bytes} {d : Draft} {outcome : Outcome Unit}
    (read : r.draft.readHeaders service.hash service.limits held = (d, outcome)) (stopped : outcome ≠ .found ()) :
    takeHeaders service r held = ⟨{ r with draft := d }, held, outcome, []⟩ := by
  cases outcome with
  | found => contradiction
  | more => simp only [takeHeaders, ByteQueue.unreadBytes, read]
  | failed fault => simp only [takeHeaders, ByteQueue.unreadBytes, read]

def onward (service : Service) (r : Request) (held : Bytes) (events : List Event) : Progress Bytes :=
  settle service { (takeHeaders service r held).andThen takeBody with events := events }

theorem advanceHeaded {held : Bytes} {events : List Event}
    (taken : takeLine service {} held = ⟨r, held, .found (), events⟩) :
    ∃ events, advance service {} held = onward service r held events := by
  refine ⟨events ++ ((takeHeaders service r held).andThen takeBody).events, ?_⟩
  simp only [advance, read, taken]
  rfl

namespace Headed
variable {line : RequestText} {lines : List FieldText} {tail : Bytes} (headed : Headed line sent r)
  (word : sent.length < Word.size) (passes : ∀ l ∈ lines, l.refusal service.limits = none) (events : List Event)
include headed word passes

theorem refused {refused : FieldText} {status : Status}
    (text : sent = line.text ++ (lines.flatMap FieldText.text ++ (refused.text ++ tail)))
    (refusal : refused.refusal service.limits = some status) :
    FieldText.Refused lines refused status sent (onward service r sent events) := by
  obtain ⟨e, fault, read, rfl, closes, noted, length⟩ :=
    Draft.headersRefused service.hash headed.cursor headed.start word headed.means text passes refusal
  simp only [onward, takeHeadersStopped read (by simp), Turn.andThen, settle, reject, closes, if_true]
  exact ⟨rfl, rfl, rfl, rfl, rfl, noted, length⟩

theorem accepted (headers : AtHeaders r sent) {blank body : Bytes}
    (shape : blank = [Byte.lf] ∨ blank = [Byte.cr, Byte.lf])
    (text : sent = line.text ++ (lines.flatMap FieldText.text ++ (blank ++ body))) :
    FieldText.Accepted line.version lines body sent (onward service r sent events) := by
  obtain ⟨e, read, left, meant⟩ := Draft.headersFound service.hash headed.cursor headed.start word headed.means text shape passes
  obtain ⟨before, same⟩ : ∃ events, takeHeaders service r sent =
      ⟨{ r with draft := e.parked 0, phase := .body }, body, .found (), events⟩ := by
    simp only [takeHeaders, ByteQueue.unreadBytes, ByteQueue.consumeBytes, read, left]
    exact ⟨_, rfl⟩
  have outcome : (takeHeaders service r sent).outcome = .found () := by rw [same]
  have found := takeHeadersFound headers outcome
  rw [same] at found
  obtain ⟨atBody, noBody, _⟩ := found
  simp only [onward, same, Turn.andThen]
  exact bodySettled (bodyTurn atBody) rfl headed.status noBody (meant.same ⟨rfl, rfl, rfl⟩) events

theorem held (text : sent = line.text ++ (lines.flatMap FieldText.text ++ tail)) (quiet : Byte.lf ∉ tail)
    (waits : (onward service r sent events).due = false) :
    (onward service r sent events).buffer = sent ∧
      FieldText.Means line.version lines sent (onward service r sent events).request.draft := by
  cases read : r.draft.readHeaders service.hash service.limits sent with
  | mk e outcome =>
    rcases Draft.headersQuiet service.hash headed.cursor headed.start word headed.means text passes quiet read with
      ⟨fault, rfl⟩ | ⟨rfl, meant⟩
    · simp [onward, takeHeadersStopped read (by simp), Turn.andThen, settle] at waits
    · obtain ⟨_, same⟩ := settleWaits waits
      rw [onward, same, takeHeadersStopped read (by simp)]
      exact ⟨rfl, meant⟩

end Headed
end Request

namespace FieldText

theorem fate (service : Service) (line : RequestText) {lines : List FieldText} {tail sent : Bytes}
    (text : sent = line.text ++ (lines.flatMap FieldText.text ++ tail)) (word : sent.length < Word.size)
    (valid : Utf8.valid line.path = true) :
    Fate service.limits line.version lines tail sent (Request.advance service {} sent) := by
  obtain ⟨r, before, taken, headed⟩ := Request.lineTaken service line text word valid
  obtain ⟨events, advanced⟩ := Request.advanceHeaded taken
  have outcome : (Request.takeLine service {} sent).outcome = .found () := by rw [taken]
  have found := Request.takeLineFound (Request.freshAtLine sent) outcome
  rw [taken] at found
  obtain ⟨_, headers⟩ := found
  rw [advanced]
  refine ⟨fun passed refused later status parts passes refusal => ?_, fun passes blank body shape parts => ?_,
    fun passes quiet waits => ?_⟩
  · have whole : sent = line.text ++ (passed.flatMap FieldText.text ++
        (refused.text ++ (later.flatMap FieldText.text ++ tail))) := by
      simp [text, parts]
    exact headed.refused word passes events whole refusal
  · rw [parts] at text
    exact headed.accepted word passes events headers shape text
  · exact headed.held word passes events text quiet waits

variable {limits : Limits} {version : Version} {lines : List FieldText} {line : FieldText} {tail sent body : Bytes}
  {p q : Progress Bytes}

theorem alikeTold (like : p.Like q) :
    p.request.status = q.request.status ∧ p.request.failed = q.request.failed ∧
      p.request.draft.fields = q.request.draft.fields ∧ p.request.draft.keepAlive = q.request.draft.keepAlive ∧
      p.request.draft.contentLength = q.request.draft.contentLength :=
  ⟨congrArg (·.status) like.request, congrArg (·.failed) like.request, congrArg (·.draft.fields) like.request,
    congrArg (·.draft.keepAlive) like.request, congrArg (·.draft.contentLength) like.request⟩

theorem Refused.like {passed : List FieldText} {status : Status} (like : p.Like q)
    (refused : Refused passed line status sent p) : Refused passed line status sent q := by
  obtain ⟨status, failed, fields, keepAlive, length⟩ := alikeTold like
  exact ⟨like.due ▸ refused.due, status ▸ refused.status, failed ▸ refused.failed, keepAlive.symm.trans refused.closes,
    like.buffer ▸ refused.held, fields ▸ refused.noted, length ▸ refused.contentLength⟩

theorem Fate.like (like : p.Like q) (fate : Fate limits version lines tail sent p) :
    Fate limits version lines tail sent q := by
  obtain ⟨status, _, fields, keepAlive, length⟩ := alikeTold like
  have same : q.request.draft.fields = p.request.draft.fields ∧ q.request.draft.keepAlive = p.request.draft.keepAlive ∧
      q.request.draft.contentLength = p.request.draft.contentLength := ⟨fields.symm, keepAlive.symm, length.symm⟩
  refine ⟨fun passed line later status parts passes refusal => ?_, fun passes blank body shape parts => ?_,
    fun passes quiet waits => ?_⟩
  · exact (fate.refused passed line later status parts passes refusal).like like
  · obtain ⟨ended, due, left, means⟩ := fate.accepted passes blank body shape parts
    exact ⟨status ▸ ended, like.due ▸ due, like.buffer ▸ left, means.same same⟩
  · obtain ⟨held, means⟩ := fate.held passes quiet (like.due.trans waits)
    exact ⟨like.buffer ▸ held, means.same same⟩

theorem firstRefused (inside : line ∈ lines) (refused : line.refusal limits ≠ none) :
    ∃ passed first later status, lines = passed ++ first :: later ∧
      (∀ l ∈ passed, l.refusal limits = none) ∧ first.refusal limits = some status := by
  induction lines with
  | nil => simp at inside
  | cons head lines ih =>
    cases here : head.refusal limits with
    | some status => exact ⟨[], head, lines, status, rfl, by simp, here⟩
    | none =>
      have later : line ∈ lines := by
        rcases List.mem_cons.mp inside with rfl | later
        · exact absurd here refused
        · exact later
      obtain ⟨passed, first, others, status, parts, passes, refusal⟩ := ih later
      exact ⟨head :: passed, first, others, status, by rw [parts, List.cons_append], by simpa [here] using passes, refusal⟩

theorem codingRefused (limits : Limits) (coded : line.named .transferEncoding = true) : line.refusal limits ≠ none := by
  have known := (namedOf (fun _ => 0) line .transferEncoding).mp coded
  rw [refusal, namedKnown known .connection, namedKnown known .contentLength, coded]
  cases isCoding line.value with
  | true => simp
  | false => simp

theorem refusalStatus {status : Status} (refused : line.refusal limits = some status) :
    status = .badRequest ∨ status = .payloadTooLarge ∨ status = .notImplemented := by
  unfold refusal at refused
  repeat' split at refused
  all_goals cases refused
  all_goals simp

end FieldText

namespace Intake
open FieldText (Fate)
open Request (Crowded)
variable {service : Service} {i : Intake} {sent : Bytes}

theorem calmUnlessLong {deliveries : List Bytes} (balance : Balance service i sent)
    (fits : i.buffer.stored.length + deliveries.flatten.length < Word.size)
    (short : (deliveries.foldl (offer service) i).request.status ≠ .requestHeaderFieldsTooLarge) :
    Calm service i deliveries := by
  induction deliveries generalizing i sent with
  | nil => trivial
  | cons bytes rest ih =>
    obtain ⟨now, behind⟩ := offerFits balance fits
    have next := offerBalance balance now
    refine ⟨fun waits long => short ?_, ih next behind short⟩
    obtain ⟨_, _, crowded, request, due, _⟩ := offerPlain balance waits now
    have plain := crowded.mp long
    obtain ⟨q, rejected⟩ := Request.crowdedRejected plain
    -- What is offered after that call only lies in the buffer.
    have ended : (rest.foldl (offer service) (i.offer service bytes)).progress = _ :=
      offersDue (due.trans (Request.crowdedDue plain)) next.sound.inside
    have same : (rest.foldl (offer service) (i.offer service bytes)).request = q.reject .headTooLarge :=
      (congrArg Progress.request ended).trans (request.trans rejected)
    rw [List.foldl_cons, same]
    rfl

/-- What a head comes to, in any deliveries: the first line that is refused ends the
request with the status of that line; where none is refused, the last line of each
name decides. A head with a transfer coding is never accepted. -/
theorem headMeaning (service : Service) (line : RequestText) (lines : List FieldText) (tail : Bytes)
    (deliveries : List Bytes) (text : deliveries.flatten = line.text ++ (lines.flatMap FieldText.text ++ tail))
    (word : deliveries.flatten.length < Word.size) (valid : Utf8.valid line.path = true)
    (short : (offerAll service deliveries).request.status ≠ .requestHeaderFieldsTooLarge) :
    Fate service.limits line.version lines tail deliveries.flatten (offerAll service deliveries).progress ∧
      ∀ l ∈ lines, l.named .transferEncoding = true →
        (offerAll service deliveries).due = true ∧ (offerAll service deliveries).request.failed = true ∧
        (offerAll service deliveries).request.keepsAlive = false ∧
        (offerAll service deliveries).request.status ≠ .ok ∧ (offerAll service deliveries).request.status ≠ .notFound := by
  have fate : Fate service.limits line.version lines tail deliveries.flatten (offerAll service deliveries).progress := by
    cases deliveries with
    | nil => simp [LineText.text] at text
    | cons first rest =>
      have fits : ({} : Intake).buffer.stored.length + (first :: rest).flatten.length < Word.size := by
        simpa using word
      have calm : Calm service {} (first :: rest) := calmUnlessLong (freshBalance service) fits short
      have like : (Request.advance service {} (first :: rest).flatten).Like (offerAll service (first :: rest)).progress :=
        offersLike (freshBalance service) rfl fits calm
      exact (FieldText.fate service line text word valid).like like
  refine ⟨fate, fun l inside coded => ?_⟩
  obtain ⟨passed, first, later, status, parts, passes, refusal⟩ :=
    FieldText.firstRefused inside (FieldText.codingRefused service.limits coded)
  have refused := fate.refused passed first later status parts passes refusal
  have known : (offerAll service deliveries).request.status = status := refused.status
  rw [known]
  refine ⟨refused.due, refused.failed, refused.closes, ?_⟩
  rcases FieldText.refusalStatus refusal with rfl | rfl | rfl
  · simp
  · simp
  · simp

theorem headMeaningInPieces :
    let service : Service := ⟨⟨[(ascii "a", .file [0x2a])]⟩, {}, ChainTable.byteHash⟩
    let line := RequestText.plain .get (ascii "a") rfl
    let lines := [FieldText.plain (ascii "Host") (ascii "b") rfl,
      FieldText.plain (ascii "connection") (ascii "Close") rfl,
      FieldText.plain (ascii "HOST") (ascii "c") rfl]
    let coded := lines ++ [FieldText.plain (ascii "Transfer-encoding") (ascii "GZip") rfl,
      FieldText.plain (ascii "Content-Length") (ascii "5") rfl]
    let pieces := [ascii "GET /a HTTP/1.1\r\nHo", ascii "st: b\r\nconnection: Close\r\nHOST: c\r", ascii "\n\r\n"]
    let others := [ascii "GET /a HTTP/1.1\r\nHost: b\r\nconn", ascii "ection: Close\r\nHOST: c\r\nTransfer-enc",
      ascii "oding: GZip\r\nContent-Length: 5\r\n\r\n12345"]
    Fate service.limits line.version lines [Byte.cr, Byte.lf] pieces.flatten (offerAll service pieces).progress ∧
      (offerAll service pieces).request.keepsAlive = false ∧
      (offerAll service pieces).request.draft.fields.value .host pieces.flatten = some (ascii "c") ∧
      Fate service.limits line.version coded (ascii "\r\n12345") others.flatten (offerAll service others).progress ∧
      (offerAll service others).request.status = .notImplemented ∧
      (offerAll service others).request.draft.contentLength = 0 := by
  intro service line lines coded pieces others
  have short : (offerAll service pieces).request.status ≠ .requestHeaderFieldsTooLarge ∧
      (offerAll service others).request.status ≠ .requestHeaderFieldsTooLarge := by decide +kernel
  have word : pieces.flatten.length < Word.size ∧ others.flatten.length < Word.size := by decide +kernel
  have valid : Utf8.valid line.path = true := by decide +kernel
  have passes : ∀ l ∈ lines, l.refusal service.limits = none := by decide +kernel
  have told := headMeaning service line lines [Byte.cr, Byte.lf] pieces (by decide +kernel) word.1 valid short.1
  have stopped := headMeaning service line coded (ascii "\r\n12345") others (by decide +kernel) word.2 valid short.2
  generalize offerAll service pieces = final at told ⊢
  generalize offerAll service others = ended at stopped ⊢
  have means := (told.1.accepted passes [Byte.cr, Byte.lf] [] (.inr rfl) rfl).means
  have refused := stopped.1.refused lines _ _ .notImplemented rfl passes (by decide +kernel)
  refine ⟨told.1, ?_, ?_, stopped.1, refused.status, ?_⟩
  · exact means.keepAlive.trans (by decide +kernel)
  · exact (means.noted.reads .host).trans (by decide +kernel)
  · exact refused.contentLength.trans (by decide +kernel)

end Intake
end StaticHttp
