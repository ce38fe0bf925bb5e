import StaticHttp.Proofs.Delimited
import StaticHttp.Proofs.HeadMeaning
/-! What an answer depends on. Of a request that is complete it is told by the path, the
version and the lines that frame the body or speak of the connection, and by whether
only the head is asked for. The method, the query, the blanks, the other lines and
the bytes of the body leave no mark on it. -/
namespace StaticHttp

namespace FieldText
variable {limits : Limits} {lines : List FieldText} {line : FieldText}

def framed (line : FieldText) : Option (Field × Bytes) :=
  if line.named .connection then some (.connection, line.value)
  else if line.named .contentLength then some (.contentLength, line.value)
  else if line.named .transferEncoding then some (.transferEncoding, line.value)
  else none

def framing (lines : List FieldText) : List (Field × Bytes) := lines.filterMap framed

def framedRefusal (limits : Limits) : Field × Bytes → Option Status
  | (.connection, value) => if isReuse value then none else some .badRequest
  | (.contentLength, value) =>
      if isLength value then
        if Decimal.number value ≤ limits.bodyLimit then none else some .payloadTooLarge
      else some .badRequest
  | (.transferEncoding, value) => if isCoding value then some .notImplemented else some .badRequest
  | _ => none

theorem framedKnown {hash : Bytes → Nat} {field : Field} (known : Field.ofName? hash line.name = some field) :
    line.framed = if field = .connection ∨ field = .contentLength ∨ field = .transferEncoding then some (field, line.value)
      else none := by
  simp only [framed, namedKnown known, decide_eq_true_eq]
  cases field
  all_goals rfl

theorem framedUnknown {hash : Bytes → Nat} (unknown : Field.ofName? hash line.name = none) : line.framed = none := by
  simp [framed, namedUnknown unknown]

theorem refusalFramed (limits : Limits) (line : FieldText) :
    line.refusal limits = line.framed.bind (framedRefusal limits) := by
  cases known : Field.ofName? (fun _ => 0) line.name with
  | none => simp [refusal, namedUnknown known, framedUnknown known]
  | some field =>
    rw [framedKnown known]
    simp only [refusal, namedKnown known, decide_eq_true_eq]
    cases field
    all_goals rfl

def firstRefusal (limits : Limits) (lines : List FieldText) : Option Status := lines.findSome? (refusal limits)

theorem firstRefusalFramed (limits : Limits) (lines : List FieldText) :
    firstRefusal limits lines = (framing lines).findSome? (framedRefusal limits) := by
  induction lines with
  | nil => rfl
  | cons line rest ih =>
    simp only [firstRefusal, framing, List.findSome?_cons, List.filterMap_cons, refusalFramed] at ih ⊢
    cases line.framed with
    | none => exact ih
    | some entry => simp only [Option.bind_some, List.findSome?_cons, ih]

theorem lastFramed {field : Field} (frames : field = .connection ∨ field = .contentLength) (lines : List FieldText) :
    last field lines = ((framing lines).reverse.find? fun entry => entry.1 == field).map Prod.snd := by
  rw [last, framing, ← List.filterMap_reverse]
  induction lines.reverse with
  | nil => rfl
  | cons line rest ih =>
    cases known : Field.ofName? (fun _ => 0) line.name with
    | none => simpa [namedUnknown known, framedUnknown known] using ih
    | some other =>
      rw [List.find?_cons, List.filterMap_cons, namedKnown known, framedKnown known]
      by_cases same : field = other
      · subst same
        rcases frames with rfl | rfl
        · simp
        · simp
      · have distinct : (other == field) = false := by simpa using Ne.symm same
        rw [decide_eq_false same]
        by_cases speaks : other = .connection ∨ other = .contentLength ∨ other = .transferEncoding
        · rw [if_pos speaks]
          simpa [distinct] using ih
        · rw [if_neg speaks]
          exact ih

theorem framingTells {others : List FieldText} (same : framing lines = framing others) (limits : Limits) (version : Version) :
    firstRefusal limits lines = firstRefusal limits others ∧ reuse version lines = reuse version others := by
  refine ⟨by rw [firstRefusalFramed, firstRefusalFramed, same], ?_⟩
  rw [reuse, reuse, lastFramed (.inl rfl), lastFramed (.inl rfl), same]

theorem firstRefusalNone : firstRefusal limits lines = none ↔ ∀ line ∈ lines, line.refusal limits = none := by
  simp [firstRefusal]

theorem firstRefusalSome {status : Status} (first : firstRefusal limits lines = some status) :
    ∃ passed line later, lines = passed ++ line :: later ∧ (∀ l ∈ passed, l.refusal limits = none) ∧
      line.refusal limits = some status := by
  obtain ⟨passed, line, later, parts, refused, passes⟩ := List.findSome?_eq_some_iff.mp first
  exact ⟨passed, line, later, parts, passes, refused⟩

end FieldText

namespace Request

structure Gist where
  version : Version
  status : Status
  failed : Bool
  resource : Option Opened
  contentType : String
  keepAlive : Bool

def gist (r : Request) : Gist where
  version := r.draft.version
  status := r.status
  failed := r.failed
  resource := r.resource
  contentType := r.contentType
  keepAlive := r.draft.keepAlive

variable {service : Service} {r q : Request}

theorem gistSelected (same : r.gist = q.gist) : Reply.selected service r = Reply.selected service q := by
  have failed : r.failed = q.failed := congrArg Gist.failed same
  have resource : r.resource = q.resource := congrArg Gist.resource same
  simp only [Reply.selected, failed, resource]

theorem gistHead (limits : Limits) (now : Bytes) (age : Duration) (size : Nat) (same : r.gist = q.gist) :
    Head.forRequest limits now (Reply.ageRule limits age (Reply.handOver r)) size =
      Head.forRequest limits now (Reply.ageRule limits age (Reply.handOver q)) size := by
  have version : r.draft.version = q.draft.version := congrArg Gist.version same
  have status : r.status = q.status := congrArg Gist.status same
  have failed : r.failed = q.failed := congrArg Gist.failed same
  have contentType : r.contentType = q.contentType := congrArg Gist.contentType same
  have keepAlive : r.draft.keepAlive = q.draft.keepAlive := congrArg Gist.keepAlive same
  simp only [Reply.ageRule, Reply.handOver, ← failed]
  split
  all_goals
    split
    all_goals simp only [Head.forRequest, keepsAlive, withoutReuse, version, status, contentType, keepAlive]

def Gist.denied (version : Version) (status : Status) : Gist := ⟨version, status, true, none, Mime.fallback, false⟩

def Gist.accepted (hash : Bytes → Nat) (version : Version) (path : Bytes) (reuse : Bool) : Option Opened → Gist
  | some opened =>
      ⟨version, .ok, false, some opened,
        Mime.ofExtension hash (if opened.index then ascii "html" else Target.suffix path), reuse⟩
  | none => ⟨version, .notFound, true, none, Mime.fallback, reuse⟩

def Gist.determined (service : Service) (path : Bytes) (readable : Prop) [Decidable readable] (version : Version)
    (refusal : Option Status) (reuse : Bool) : Gist :=
  if readable ∧ version.major = 1 then
    match service.site.find path with
    | .error .invalidUrl => .denied version .badRequest
    | found =>
        match refusal with
        | some status => .denied version status
        | none => .accepted service.hash version path reuse found.toOption
  else .denied version .httpVersionNotSupported

theorem rejectGist (r : Request) {fault : Fault} (closes : fault.closes = true) :
    (r.reject fault).gist = .denied r.draft.version fault.status := by
  simp only [reject, closes, if_true]
  rfl

theorem rejectMethod (r : Request) (fault : Fault) : (r.reject fault).draft.method = r.draft.method := by
  simp only [reject]
  split
  · rfl
  · rfl

end Request

namespace LineText

instance (line : LineText) : Decidable line.Readable := inferInstanceAs (Decidable (_ ∧ _))

end LineText

namespace Request
variable {service : Service} {line : LineText} {sent : Bytes}

structure Located (service : Service) (line : LineText) (sent : Bytes) (r : Request) : Prop where
  status : r.status = .ok
  unfailed : r.failed = false
  cursor : r.draft.cursor = line.text.length
  start : r.draft.field = .start
  unread : r.draft.bodyRead = 0
  version : r.draft.version = line.version
  method : r.draft.method = some line.method
  means : FieldText.Means line.version [] sent r.draft
  found : (∃ opened, service.site.find line.path = .ok opened ∧ r.missing = false ∧ r.resource = some opened ∧
      r.contentType = Mime.ofExtension service.hash (if opened.index then ascii "html" else Target.suffix line.path)) ∨
    service.site.find line.path = .error .notFound ∧ r.missing = true

inductive LineEnd (service : Service) (line : LineText) (sent : Bytes) : Turn Bytes → Prop where
  | located {r : Request} {events : List Event} (supported : line.Readable ∧ line.version.major = 1)
      (located : Located service line sent r) : LineEnd service line sent ⟨r, sent, .found (), events⟩
  | failed {r : Request} {fault : Fault} {events : List Event} (closes : fault.closes = true)
      (method : r.draft.method = some line.method) (version : r.draft.version = line.version)
      (told : ∀ refusal reuse, Gist.determined service line.path line.Readable line.version refusal reuse =
        .denied line.version fault.status) : LineEnd service line sent ⟨r, sent, .failed fault, events⟩

theorem lineEnd (service : Service) (line : LineText) {rest : Bytes} (text : sent = line.text ++ rest)
    (word : sent.length < Word.size) : LineEnd service line sent (takeLine service {} sent) := by
  have read := line.readLine rest (text ▸ word)
  rw [← text] at read
  simp only [takeLine, ByteQueue.unreadBytes]
  generalize ({} : Draft).readRequestLine sent = outcome at read
  cases read with
  | refused large version method =>
    refine .failed rfl method version fun refusal reuse => ?_
    exact if_neg fun both => large both.1
  | found readable told behind =>
    by_cases major : line.version.major = 1
    · simp only [ne_eq, major, not_true, if_false, told.path, locate, extension, ByteQueue.unreadBytes, told.extension,
        Option.getD_some]
      cases found : service.site.find line.path with
      | ok opened =>
        refine .located ⟨readable, major⟩
          ⟨rfl, rfl, behind, rfl, rfl, rfl, rfl, meansNothing rfl rfl rfl, .inl ?_⟩
        exact ⟨opened, found, rfl, rfl, rfl⟩
      | error fault =>
        rcases Site.findFault found with rfl | rfl
        · exact .located ⟨readable, major⟩
            ⟨rfl, rfl, behind, rfl, rfl, rfl, rfl, meansNothing rfl rfl rfl, .inr ⟨found, rfl⟩⟩
        · refine .failed rfl rfl rfl fun refusal reuse => ?_
          simp only [Gist.determined, readable, major, and_self, if_true, found]
          rfl
    · simp only [ne_eq, major, not_false_eq_true, if_true]
      refine .failed rfl rfl rfl fun refusal reuse => ?_
      exact if_neg fun both => major both.2

structure Settled (method : Method) (gist : Gist) (p : Progress Bytes) : Prop where
  due : p.due = true
  method : p.request.draft.method = some method
  gist : p.request.gist = gist

theorem Settled.like {method : Method} {gist : Gist} {p q : Progress Bytes} (like : p.Like q)
    (settled : Settled method gist p) : Settled method gist q :=
  ⟨like.due.symm.trans settled.due, (congrArg (fun r : Request => r.draft.method) like.request).symm.trans settled.method,
    (congrArg Request.gist like.request).symm.trans settled.gist⟩

theorem rejectSettled {r : Request} {fault : Fault} {method : Method} (closes : fault.closes = true)
    (asked : r.draft.method = some method) (held : Bytes) (events : List Event) :
    Settled method (.denied r.draft.version fault.status) ⟨r.reject fault, held, true, events⟩ :=
  ⟨rfl, (rejectMethod r fault).trans asked, rejectGist r closes⟩

namespace Located
variable {r : Request} {lines : List FieldText} {version : Version} {reuse : Bool} (located : Located service line sent r)
  (supported : line.Readable ∧ line.version.major = 1) (word : sent.length < Word.size)
include located supported

theorem refusedGist (status : Status) :
    Gist.determined service line.path line.Readable line.version (some status) reuse = .denied line.version status := by
  rcases located.found with ⟨opened, there, _⟩ | ⟨missing, _⟩
  · simp only [Gist.determined, if_pos supported, there]
  · simp only [Gist.determined, if_pos supported, missing]

theorem acceptedGist :
    Gist.determined service line.path line.Readable line.version none reuse =
      .accepted service.hash line.version line.path reuse (service.site.find line.path).toOption := by
  rcases located.found with ⟨opened, there, _⟩ | ⟨missing, _⟩
  · simp only [Gist.determined, if_pos supported, there]
  · simp only [Gist.determined, if_pos supported, missing]

include word

theorem refused {passed : List FieldText} {stopper : FieldText} {tail : Bytes} {status : Status}
    (text : sent = line.text ++ (passed.flatMap FieldText.text ++ (stopper.text ++ tail)))
    (passes : ∀ l ∈ passed, l.refusal service.limits = none) (refusal : stopper.refusal service.limits = some status)
    (events : List Event) :
    Settled line.method (Gist.determined service line.path line.Readable line.version (some status) reuse)
      (onward service r sent events) := by
  obtain ⟨e, fault, read, rfl, closes, _, _⟩ :=
    Draft.headersRefused service.hash located.cursor located.start word located.means text passes refusal
  have aside : r.draft.Aside e := Draft.readHeadersAside read
  rw [located.refusedGist supported, ← located.version, ← aside.version]
  simp only [onward, takeHeadersStopped read (by simp), Turn.andThen, settle]
  exact rejectSettled (r := { r with draft := e }) closes (aside.method.trans located.method) sent _

theorem accepted {blank body : Bytes} (text : sent = line.text ++ (lines.flatMap FieldText.text ++ (blank ++ body)))
    (shape : blank = [Byte.lf] ∨ blank = [Byte.cr, Byte.lf]) (passes : ∀ l ∈ lines, l.refusal service.limits = none)
    (whole : body.length = FieldText.length lines) (events : List Event) :
    Settled line.method
      (Gist.determined service line.path line.Readable line.version none (FieldText.reuse line.version lines))
      (onward service r sent events) := by
  obtain ⟨e, read, left, meant⟩ :=
    Draft.headersFound service.hash located.cursor located.start word located.means text shape passes
  have aside : r.draft.Aside e := Draft.readHeadersAside read
  have unread : e.bodyRead = 0 := aside.bodyRead.trans located.unread
  have length : e.bodyRead + body.length = e.contentLength := by
    rw [unread, meant.contentLength, whole, Nat.zero_add]
  have version : e.version = line.version := aside.version.trans located.version
  have method : e.method = some line.method := aside.method.trans located.method
  obtain ⟨before, same⟩ : ∃ events, takeHeaders service r sent =
      ⟨{ r with draft := e.parked 0, phase := .body }, body, .found (), events⟩ := by
    simp only [takeHeaders, ByteQueue.unreadBytes, ByteQueue.consumeBytes, read, left]
    exact ⟨_, rfl⟩
  rw [located.acceptedGist supported]
  simp only [onward, same, Turn.andThen, takeBodyWhole (r := { r with draft := e.parked 0, phase := .body }) rfl
    (Nat.le_refl body.length) length, settle]
  rcases located.found with ⟨opened, there, present, resource, contentType⟩ | ⟨absent, missing⟩
  · have served : (({ r with draft := e.parked 0, phase := .body } : Request).counted body.length).conclude.1 =
        { ({ r with draft := e.parked 0, phase := .body } : Request).counted body.length with phase := .done } := by
      simp only [conclude, counted, present, Bool.false_eq_true, if_false]
    rw [served, there]
    refine ⟨rfl, method, ?_⟩
    simp only [gist, counted, Draft.parked, version, located.status, located.unfailed, resource, contentType, meant.keepAlive]
    rfl
  · have denied : (({ r with draft := e.parked 0, phase := .body } : Request).counted body.length).conclude.1 =
        ({ ({ r with draft := e.parked 0, phase := .body } : Request).counted body.length with phase := .done }).reject
          .notFound := by
      simp only [conclude, counted, missing, if_true]
    rw [denied, absent]
    refine ⟨rfl, (rejectMethod _ _).trans method, ?_⟩
    simp only [gist, reject, counted, Fault.closes, Bool.false_eq_true, if_false, Draft.parked, version, meant.keepAlive]
    rfl

end Located

end Request
structure MessageText where
  line : LineText
  lines : List FieldText
  blank : Bytes
  body : Bytes
  blankLine : blank = [Byte.lf] ∨ blank = [Byte.cr, Byte.lf]

namespace MessageText

def text (m : MessageText) : Bytes := m.line.text ++ (m.lines.flatMap FieldText.text ++ (m.blank ++ m.body))

def Complete (limits : Limits) (m : MessageText) : Prop :=
  (∀ l ∈ m.lines, l.refusal limits = none) → m.body.length = FieldText.length m.lines

structure SameAsked (m n : MessageText) : Prop where
  path : m.line.path = n.line.path
  major : Decimal.number m.line.major = Decimal.number n.line.major
  minor : Decimal.number m.line.minor = Decimal.number n.line.minor
  framing : FieldText.framing m.lines = FieldText.framing n.lines

variable {service : Service} {m n : MessageText}

def gist (service : Service) (m : MessageText) : Request.Gist :=
  .determined service m.line.path m.line.Readable m.line.version (FieldText.firstRefusal service.limits m.lines)
    (FieldText.reuse m.line.version m.lines)

theorem SameAsked.gist (asked : m.SameAsked n) (service : Service) : m.gist service = n.gist service := by
  have version : m.line.version = n.line.version := by
    rw [LineText.version, LineText.version, asked.major, asked.minor]
  have readable : m.line.Readable ↔ n.line.Readable := by
    rw [LineText.Readable, LineText.Readable, asked.major, asked.minor]
  obtain ⟨refusal, reuse⟩ := FieldText.framingTells asked.framing service.limits n.line.version
  simp only [MessageText.gist, Request.Gist.determined, asked.path, version, readable, refusal, reuse]

theorem settled (complete : m.Complete service.limits) (word : m.text.length < Word.size) :
    Request.Settled m.line.method (m.gist service) (Request.advance service {} m.text) := by
  have ends : Request.LineEnd service m.line m.text (Request.takeLine service {} m.text) :=
    Request.lineEnd service m.line rfl word
  generalize taken : Request.takeLine service {} m.text = t at ends
  cases ends with
  | failed closes method version told =>
    rw [gist, told, ← version]
    simp only [Request.advance, Request.read, taken, Turn.andThen, Request.settle]
    exact Request.rejectSettled closes method m.text _
  | located supported located =>
    obtain ⟨events, advanced⟩ := Request.advanceHeaded taken
    rw [advanced, gist]
    cases first : FieldText.firstRefusal service.limits m.lines with
    | none =>
      have passes := FieldText.firstRefusalNone.mp first
      exact located.accepted supported word rfl m.blankLine passes (complete passes) events
    | some status =>
      obtain ⟨passed, stopper, later, parts, passes, refusal⟩ := FieldText.firstRefusalSome first
      have text : m.text = m.line.text ++ (passed.flatMap FieldText.text ++
          (stopper.text ++ (later.flatMap FieldText.text ++ (m.blank ++ m.body)))) := by
        simp [MessageText.text, parts]
      exact located.refused supported word text passes refusal events

structure Arrives (service : Service) (m : MessageText) (deliveries : List Bytes) : Prop where
  text : deliveries.flatten = m.text
  complete : m.Complete service.limits
  word : m.text.length < Word.size
  short : (Intake.offerAll service deliveries).request.status ≠ .requestHeaderFieldsTooLarge

theorem Arrives.settled {deliveries : List Bytes} (arrives : m.Arrives service deliveries) :
    Request.Settled m.line.method (m.gist service) (Intake.offerAll service deliveries).progress := by
  have whole := MessageText.settled arrives.complete arrives.word
  cases deliveries with
  | nil =>
    have none := arrives.text
    simp [MessageText.text, LineText.text] at none
  | cons first rest =>
    have fits : ({} : Intake).buffer.stored.length + (first :: rest).flatten.length < Word.size := by
      simpa [arrives.text] using arrives.word
    have calm : Intake.Calm service {} (first :: rest) :=
      Intake.calmUnlessLong (Intake.freshBalance service) fits arrives.short
    have like : (Request.advance service {} (first :: rest).flatten).Like (Intake.offerAll service (first :: rest)).progress :=
      Intake.offersLike (Intake.freshBalance service) rfl fits calm
    rw [arrives.text] at like
    exact whole.like like

end MessageText

namespace Reply

theorem bodyOfOther {m n : Method} (whole : m ≠ .head) (other : n ≠ .head) (opened : Option Opened) :
    bodyOf (some m) opened = bodyOf (some n) opened := by
  cases opened with
  | none => rfl
  | some opened => simp [bodyOf, whole, other]

theorem bodyOfHead (opened : Option Opened) : bodyOf (some .head) opened = {} := by
  cases opened with
  | none => rfl
  | some opened => rfl

theorem sendHead (site : Site) (output : OffsetBuffer) (script : List Reaction) :
    (send site {} output script).calls.flatMap Call.taken <+: output.unread := by
  simp only [send]
  split
  · exact List.nil_prefix
  · simp [sendBody, Call.taken]

end Reply

namespace MessageText

end MessageText
end StaticHttp
