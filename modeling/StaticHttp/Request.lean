import StaticHttp.OffsetBuffer
import StaticHttp.Draft.RequestLine
import StaticHttp.Draft.Headers
import StaticHttp.Draft.Body
import StaticHttp.Mime
import StaticHttp.Site.Find
import StaticHttp.Event
/-! A request from its first byte until it can be answered. The head stays in the
buffer until its last line has acted and is released as a whole; body bytes are
released as they are counted. A missing file does not stop the reading: the
request is answered only once its body is through, so that the next request
starts at the right byte. -/
namespace StaticHttp

structure Service where
  site : Site
  limits : Limits := {}
  hash : Bytes → Nat

inductive Phase where
  | requestLine
  | headers
  | body
  | done
  deriving DecidableEq, Repr

structure Request where
  draft : Draft := {}
  phase : Phase := .requestLine
  resource : Option Opened := none
  status : Status := .ok
  contentType : String := Mime.fallback
  missing : Bool := false
  failed : Bool := false
  deriving DecidableEq, Repr

structure Turn (β : Type) where
  request : Request
  buffer : β
  outcome : Outcome Unit
  events : List Event := []
  deriving DecidableEq, Repr

structure Progress (β : Type) where
  request : Request
  buffer : β
  due : Bool
  events : List Event := []
  deriving DecidableEq, Repr

namespace Turn
variable {β : Type}

def andThen (t : Turn β) (next : Request → β → Turn β) : Turn β :=
  match t.outcome with
  | .found () =>
      let u := next t.request t.buffer
      { u with events := t.events ++ u.events }
  | _ => t

end Turn

namespace Request
open ByteQueue (unread consume)
variable {β : Type} [ByteQueue β]

def keepsAlive (r : Request) : Bool := r.draft.keepAlive

def withoutReuse (r : Request) : Request := { r with draft := { r.draft with keepAlive := false } }

def reject (r : Request) (fault : Fault) : Request :=
  { (if fault.closes then r.withoutReuse else r) with
    status := fault.status
    failed := true
    resource := none
    contentType := Mime.fallback
    phase := .done }

def extension (draft : Draft) (buffer : Bytes) (opened : Opened) : Bytes :=
  if opened.index then ascii "html" else (draft.target.extension.slice? buffer).getD []

def locate (service : Service) (r : Request) (buffer : β) (path : Bytes) : Turn β :=
  let events := if Site.refuses path then [.climbing path] else []
  match service.site.find path with
  | .ok opened =>
      let found := { r with
        resource := some opened
        contentType := Mime.ofExtension service.hash (extension r.draft (unread buffer) opened)
        phase := .headers }
      ⟨found, buffer, .found (), events⟩
  | .error .notFound => ⟨{ r with missing := true, phase := .headers }, buffer, .found (), events⟩
  | .error fault => ⟨r, buffer, .failed fault, events⟩

def takeLine (service : Service) (r : Request) (buffer : β) : Turn β :=
  match r.draft.readRequestLine (unread buffer) with
  | (draft, .found ()) =>
      if draft.version.major ≠ 1 then ⟨{ r with draft := draft }, buffer, .failed .unsupportedVersion, []⟩
      else
        let read := { r with draft := { draft with keepAlive := draft.version.keepsAlive } }
        match draft.target.path.slice? (unread buffer) with
        | some path => locate service read buffer path
        | none => ⟨read, buffer, .failed .invalidUrl, []⟩
  | (draft, outcome) => ⟨{ r with draft := draft }, buffer, outcome, []⟩

def takeHeaders (service : Service) (r : Request) (buffer : β) : Turn β :=
  match r.draft.readHeaders service.hash service.limits (unread buffer) with
  | (draft, .found ()) =>
      let event := .request draft.method (draft.target.whole.slice? (unread buffer))
        (draft.fields.value .host (unread buffer)) draft.version
      ⟨{ r with draft := { draft with cursor := 0 }, phase := .body }, consume buffer draft.cursor,
        .found (), [event]⟩
  | (draft, outcome) => ⟨{ r with draft := draft }, buffer, outcome, []⟩

def conclude (r : Request) : Request × List Event :=
  if r.missing then ({ r with phase := .done }.reject .notFound, [.ofFault .notFound])
  else ({ r with phase := .done }, [])

def takeBody (r : Request) (buffer : β) : Turn β :=
  let (draft, outcome) := r.draft.readBody (unread buffer)
  let read := { r with draft := { draft with cursor := 0 } }
  let rest := consume buffer draft.cursor
  match outcome with
  | .found () => ⟨read.conclude.1, rest, .found (), read.conclude.2⟩
  | outcome => ⟨read, rest, outcome, []⟩

def read (service : Service) (r : Request) (buffer : β) : Turn β :=
  match r.phase with
  | .requestLine =>
      (takeLine service r buffer).andThen fun r buffer =>
        (takeHeaders service r buffer).andThen takeBody
  | .headers => (takeHeaders service r buffer).andThen takeBody
  | .body => takeBody r buffer
  | .done => ⟨r, buffer, .found (), []⟩

def inHead (r : Request) : Bool := r.phase == .requestLine || r.phase == .headers

def settle (service : Service) (t : Turn β) : Progress β :=
  match t.outcome with
  | .found () => ⟨t.request, t.buffer, true, t.events⟩
  | .failed fault => ⟨t.request.reject fault, t.buffer, true, t.events ++ [.ofFault fault]⟩
  | .more =>
      if t.request.inHead && service.limits.headLimit ≤ (unread t.buffer).length then
        ⟨t.request.reject .headTooLarge, t.buffer, true, t.events ++ [.ofFault .headTooLarge]⟩
      else ⟨t.request, t.buffer, false, t.events⟩

def advance (service : Service) (r : Request) (buffer : β) : Progress β :=
  settle service (read service r buffer)

theorem advanceDone {service : Service} {r : Request} (done : r.phase = .done) (buffer : β) :
    advance service r buffer = ⟨r, buffer, true, []⟩ := by
  simp [advance, read, settle, done]

end Request
end StaticHttp
