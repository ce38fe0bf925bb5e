import StaticHttp.Request
/-! The reply to a request: a head in the output buffer and the file behind it.
Replies to faults carry the error page, if the site has one. -/
namespace StaticHttp

def serverName : String := "filament/0.1.0"

structure Head where
  version : Version
  status : Status
  fields : List (Bytes × Bytes)
  deriving DecidableEq, Repr

namespace Head

def lineEnd : Bytes := [Byte.cr, Byte.lf]

def statusLine (h : Head) : Bytes :=
  h.version.echo ++ [Byte.space] ++ Decimal.write h.status.code ++ [Byte.space] ++
    ascii h.status.reason ++ lineEnd

def fieldLine (field : Bytes × Bytes) : Bytes := field.1 ++ ascii ": " ++ field.2 ++ lineEnd

def render (h : Head) : Bytes := h.statusLine ++ h.fields.flatMap fieldLine ++ lineEnd

/- The length is told when there is a body, and also when there is none on a
connection that goes on, whose client finds the end by no other means. -/
def lengthField (size : Nat) (keepAlive : Bool) : List (Bytes × Bytes) :=
  if size > 0 ∨ keepAlive then [(ascii "Content-Length", Decimal.write size)] else []

def connectionFields (limits : Limits) (keepAlive : Bool) : List (Bytes × Bytes) :=
  if keepAlive then
    [(ascii "Connection", ascii "keep-alive"),
     (ascii "Keep-Alive",
       ascii "timeout=" ++ Decimal.write (Duration.wholeSeconds limits.keepAlive) ++ ascii ", max=1")]
  else [(ascii "Connection", ascii "close")]

def forRequest (limits : Limits) (now : Bytes) (r : Request) (size : Nat) : Head where
  version := r.draft.version
  status := r.status
  fields :=
    [(ascii "Date", now),
     (ascii "Server", ascii serverName),
     (ascii "Content-Type", ascii r.contentType)] ++
    lengthField size r.keepsAlive ++ connectionFields limits r.keepsAlive

end Head

inductive ReplyPhase where
  | head
  | body
  | done
  deriving DecidableEq, Repr

structure Reply where
  phase : ReplyPhase := .head
  body : Option Path := none
  length : Nat := 0
  sent : Nat := 0
  deriving DecidableEq, Repr

structure Composed where
  reply : Reply
  head : Head
  request : Request
  output : OffsetBuffer
  deriving DecidableEq, Repr

namespace Reply

def unsent (reply : Reply) : Nat := reply.length - reply.sent

def delivered (reply : Reply) : Bool := reply.phase == .done

def selected (service : Service) (r : Request) : Option Opened :=
  if r.failed then service.site.faultPage else r.resource

def sizeOf (opened : Option Opened) : Nat := (opened.map Opened.size).getD 0

def ageRule (limits : Limits) (age : Duration) (r : Request) : Request :=
  if age > limits.connectionTime then r.withoutReuse else r

def handOver (r : Request) : Request := if r.failed then r else { r with resource := none }

def bodyOf (method : Option Method) (opened : Option Opened) : Reply :=
  match opened with
  | some opened => if method = some .head then {} else { body := some opened.path, length := opened.size }
  | none => {}

def compose (service : Service) (now : Bytes) (age : Duration) (r : Request) (output : OffsetBuffer) :
    Composed :=
  let opened := selected service r
  let answered := ageRule service.limits age (handOver r)
  let head := Head.forRequest service.limits now answered (sizeOf opened)
  { reply := bodyOf answered.draft.method opened
    head := head
    request := answered
    output := output.append head.render }

end Reply
end StaticHttp
