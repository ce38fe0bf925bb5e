import StaticHttp.Reply
/-! Sending a reply over a transport that may fail at any call and may take less
of the file than it is offered. Whatever was sent stays sent: the next attempt
goes on behind it. -/
namespace StaticHttp

inductive Reaction where
  | fails (fault : IoFault)
  | takes (limit : Nat)
  | takesAll
  deriving DecidableEq, Repr

inductive Call where
  | write (taken : Option Bytes)
  | send (taken : Option Bytes) (offset count : Nat)
  deriving DecidableEq, Repr

structure Attempt where
  reply : Reply
  output : OffsetBuffer
  calls : List Call
  result : Except IoFault Unit

namespace Call

def taken : Call → Bytes
  | write bytes => bytes.getD []
  | send bytes _ _ => bytes.getD []

end Call

namespace Reply

def sendLimit : Nat := 1048576

def shrank : IoFault := ⟨.unexpectedEof, "file shrank while being sent"⟩

def grasp : Option Reaction → Bytes → Except IoFault Bytes
  | some (.fails fault), _ => .error fault
  | some (.takes limit), offered => .ok (offered.take limit)
  | some .takesAll, offered => .ok offered
  | none, offered => .ok offered

def sendFile (content : Bytes) (reply : Reply) (script : List Reaction) :
    Reply × List Call × Except IoFault Unit :=
  if _ : reply.sent < reply.length then
    let count := min (reply.length - reply.sent) sendLimit
    match grasp script.head? ((content.drop reply.sent).take count) with
    | .error fault => (reply, [.send none reply.sent count], .error fault)
    | .ok [] => (reply, [.send (some []) reply.sent count], .error shrank)
    | .ok (b :: rest) =>
        let (last, calls, result) :=
          sendFile content { reply with sent := reply.sent + (b :: rest).length } script.tail
        (last, .send (some (b :: rest)) reply.sent count :: calls, result)
  else (reply, [], .ok ())
  termination_by reply.length - reply.sent
  decreasing_by simp only [List.length_cons]; omega

def sendBody (site : Site) (reply : Reply) (script : List Reaction) :
    Reply × List Call × Except IoFault Unit :=
  match reply.body with
  | none => ({ reply with phase := .done }, [], .ok ())
  | some path =>
      match sendFile ((site.content? path).getD []) reply script with
      | (last, calls, .ok ()) => ({ last with body := none, phase := .done }, calls, .ok ())
      | stopped => stopped

def send (site : Site) (reply : Reply) (output : OffsetBuffer) (script : List Reaction) : Attempt :=
  match reply.phase with
  | .head =>
      match script.head? with
      | some (.fails fault) => ⟨reply, output, [.write none], .error fault⟩
      | _ =>
          let head := output.unread
          let (last, calls, result) := sendBody site { reply with phase := .body } script.tail
          ⟨last, output.consume head.length, .write (some head) :: calls, result⟩
  | _ =>
      let (last, calls, result) := sendBody site reply script
      ⟨last, output, calls, result⟩

end Reply
end StaticHttp
