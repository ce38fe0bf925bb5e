import StaticHttp.Reply.Send
/-! One connection from its first byte to its end: reads come in, and every
request that is complete is answered before the next read. After an answer that
closes, what still comes in is discarded. -/
namespace StaticHttp

structure Clock where
  now : Bytes
  age : Nat → Duration

structure Exchange where
  request : Request
  head : Head
  written : Bytes
  deriving DecidableEq, Repr

inductive Stage where
  | serving
  | draining
  | closed
  deriving DecidableEq, Repr

structure Connection where
  stage : Stage := .serving
  intake : OffsetBuffer := {}
  output : OffsetBuffer := {}
  request : Request := {}
  reply : Reply := {}
  exchanges : List Exchange := []
  deriving DecidableEq, Repr

namespace Connection

def received (c : Connection) : Bytes := c.exchanges.reverse.flatMap Exchange.written

def answer (service : Service) (clock : Clock) (c : Connection) : Connection :=
  let composed := Reply.compose service clock.now (clock.age c.exchanges.length) c.request c.output
  let attempt := Reply.send service.site composed.reply composed.output []
  let exchange := ⟨composed.request, composed.head, attempt.calls.flatMap Call.taken⟩
  let answered := { c with
    request := composed.request
    reply := attempt.reply
    output := attempt.output
    exchanges := exchange :: c.exchanges }
  match attempt.result with
  | .error _ => { answered with stage := .closed }
  | .ok () =>
      if composed.request.keepsAlive then
        { answered with request := {}, reply := {}, output := answered.output.clear }
      else { answered with stage := .draining }

/- Reads and answers from the buffer until more bytes are needed or the stage is
over. Every answer after which the connection goes on has used up a byte, so as
many rounds as there are bytes are enough. -/
def drive (service : Service) (clock : Clock) : Nat → Connection → Connection
  | 0, c => c
  | rounds + 1, c =>
      if c.intake.isEmpty || c.stage != .serving then c
      else
        let progress := c.request.advance service c.intake
        let read := { c with request := progress.request, intake := progress.buffer }
        if progress.due then drive service clock rounds (answer service clock read) else read

def deliver (service : Service) (clock : Clock) (c : Connection) (read : Bytes) : Connection :=
  let chunk := service.limits.readLimit
  match c.stage, read.take chunk with
  | .closed, _ => c
  | _, [] => { c with stage := .closed }
  | .draining, _ => { c with intake := (c.intake.clear.fill read chunk).1 }
  | .serving, _ =>
      let filled := { c with intake := (c.intake.fill read chunk).1 }
      drive service clock filled.intake.size filled

/- Cuts bytes into pieces that one read can take. Nothing can be read when a
read may take nothing. -/
def pieces (size : Nat) (bytes : Bytes) : List Bytes :=
  if size = 0 ∨ bytes = [] then []
  else bytes.take size :: pieces size (bytes.drop size)
  termination_by bytes.length
  decreasing_by
    cases bytes with
    | nil => simp_all
    | cons b rest => simp only [List.length_drop, List.length_cons]; omega

def run (service : Service) (clock : Clock) (chunks : List Bytes) : Connection :=
  (chunks.flatMap (pieces service.limits.readLimit)).foldl (deliver service clock) {}

end Connection
end StaticHttp
