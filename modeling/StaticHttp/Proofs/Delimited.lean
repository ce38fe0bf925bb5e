import StaticHttp.Proofs.HeadText
import StaticHttp.Proofs.Prospect
import StaticHttp.Proofs.Sending
import StaticHttp.Proofs.Transfer
/-! A client finds the responses in the stream it receives. Every request that comes
due is answered by a message whose head tells where its body ends, so that the client
gets back what was put together, whatever was asked for and in whatever reads. -/
namespace StaticHttp

namespace Reply

def content (service : Service) (r : Request) : Bytes :=
  ((selected service r).bind fun opened => service.site.content? opened.path).getD []

def bodyTo (service : Service) (r : Request) : Bytes :=
  if r.draft.method = some .head then [] else content service r

variable {service : Service} {r : Request}

theorem selectedHolds (stocked : Request.Stocked service r) {opened : Opened} (chosen : selected service r = some opened) :
    service.site.Holds opened := by
  unfold selected at chosen
  split at chosen
  · exact Site.faultPageHolds chosen
  · exact stocked opened chosen

theorem sizeContent (stocked : Request.Stocked service r) : sizeOf (selected service r) = (content service r).length := by
  unfold content
  cases chosen : selected service r with
  | none => rfl
  | some opened =>
    obtain ⟨content, there, size⟩ := selectedHolds stocked chosen
    simp [sizeOf, there, size]

theorem sendWritten (stocked : Request.Stocked service r) (output : OffsetBuffer) :
    (send service.site (bodyOf r.draft.method (selected service r)) output []).calls.flatMap Call.taken =
      output.unread ++ bodyTo service r := by
  have ends : (send service.site (bodyOf r.draft.method (selected service r)) output []).result = .ok () :=
    sendEnds stocked
  unfold bodyTo content
  cases chosen : selected service r with
  | none => simp [bodyOf, send, sendBody, Call.taken]
  | some opened =>
    by_cases head : r.draft.method = some .head
    · simp [bodyOf, head, send, sendBody, Call.taken]
    · obtain ⟨content, there, size⟩ := selectedHolds stocked chosen
      have keeps : Transfer.Keeps service.site (some opened.path) content := by
        intro names same
        cases same
        exact ⟨content, there, List.prefix_refl _⟩
      obtain ⟨n, reply, calls, result, same, course, _, whole⟩ :=
        Transfer.sendBodyCalls {} (Nat.zero_le _) rfl keeps (by simp) [] output.unread
      rw [size] at same
      simp only [chosen, bodyOf, if_neg head, send, List.head?_nil, List.tail_nil, same] at ends ⊢
      obtain rfl := whole.mp ends
      have gone := course.gone
      simp only [Transfer.Place.gone, List.take_zero, List.append_nil, List.take_length] at gone
      simpa [Call.taken, there] using gone

theorem answeredSame (limits : Limits) (age : Duration) (r : Request) :
    (ageRule limits age (handOver r)).draft.method = r.draft.method ∧
      (ageRule limits age (handOver r)).status = r.status ∧
      (ageRule limits age (handOver r)).contentType = r.contentType ∧
      (ageRule limits age (handOver r)).draft.version = r.draft.version := by
  unfold ageRule handOver
  repeat' split
  all_goals exact ⟨rfl, rfl, rfl, rfl⟩

theorem composeBody (service : Service) (now : Bytes) (age : Duration) (r : Request) (output : OffsetBuffer) :
    (compose service now age r output).reply = bodyOf r.draft.method (selected service r) := by
  rw [compose, (answeredSame service.limits age r).1]

theorem composeFresh (service : Service) (now : Bytes) (age : Duration) (r : Request) :
    (compose service now age r {}).output = OffsetBuffer.append {} (compose service now age r {}).head.render ∧
      (compose service now age r {}).output.unread = (compose service now age r {}).head.render := by
  rw [compose]
  exact ⟨rfl, OffsetBuffer.unreadAppend (Nat.le_refl _) _⟩

theorem composeSent (stocked : Request.Stocked service r) (now : Bytes) (age : Duration) :
    (send service.site (compose service now age r {}).reply (compose service now age r {}).output []).calls.flatMap
      Call.taken = (compose service now age r {}).head.render ++ bodyTo service r := by
  rw [composeBody, sendWritten stocked, (composeFresh service now age r).2]

end Reply

namespace Connection
open Request (Stocked)

def message (service : Service) (clock : Clock) (n : Nat) (r : Request) : Client.Message where
  method := r.draft.method
  head := (Reply.compose service clock.now (clock.age n) r {}).head
  body := Reply.bodyTo service r

def exchange (service : Service) (clock : Clock) (n : Nat) (r : Request) : Exchange where
  request := (Reply.compose service clock.now (clock.age n) r {}).request
  head := (Reply.compose service clock.now (clock.age n) r {}).head
  written := (message service clock n r).text

def dueDriving (service : Service) (clock : Clock) : Nat → Connection → List Request
  | 0, _ => []
  | rounds + 1, c =>
      if c.intake.isEmpty || c.stage != .serving then []
      else if (c.request.advance service c.intake).due then
        (called service c).request :: dueDriving service clock rounds (answer service clock (called service c))
      else []

def dueDelivering (service : Service) (clock : Clock) (c : Connection) (read : Bytes) : List Request :=
  match c.stage, read.take service.limits.readLimit with
  | .serving, _ :: _ =>
      let filled := { c with intake := (c.intake.fill read service.limits.readLimit).1 }
      dueDriving service clock filled.intake.size filled
  | _, _ => []

def dueRunning (service : Service) (clock : Clock) : Connection → List Bytes → List Request
  | _, [] => []
  | c, read :: rest => dueDelivering service clock c read ++ dueRunning service clock (c.deliver service clock read) rest

def requestsDue (service : Service) (clock : Clock) (chunks : List Bytes) : List Request :=
  dueRunning service clock {} (chunks.flatMap (pieces service.limits.readLimit))

structure Proper (service : Service) (r : Request) : Prop where
  stocked : Stocked service r
  typed : Head.Typed r

def Standing (service : Service) (c : Connection) : Prop :=
  c.stage = .serving → c.output = {} ∧ Proper service c.request

structure Answered (service : Service) (clock : Clock) (c : Connection) (due : List Request) (d : Connection) : Prop where
  exchanges : d.exchanges.reverse =
    c.exchanges.reverse ++ due.mapIdx fun k => exchange service clock (c.exchanges.length + k)
  proper : ∀ r ∈ due, Proper service r
  standing : Standing service d

variable {service : Service} {clock : Clock} {c d e : Connection}

theorem freshProper (service : Service) : Proper service {} := ⟨Request.freshStocked service, List.mem_cons_self⟩

theorem advanceProper {β : Type} [ByteQueue β] {r : Request} (proper : Proper service r) (buffer : β) :
    Proper service (r.advance service buffer).request :=
  ⟨Request.advanceStocked proper.stocked buffer, (Head.keptTyped service).advance proper.typed buffer⟩

theorem Answered.none (same : d.exchanges = c.exchanges) (standing : Standing service d) :
    Answered service clock c [] d := ⟨by simp [same], by simp, standing⟩

theorem Answered.append {due more : List Request} (first : Answered service clock c due d)
    (second : Answered service clock d more e) : Answered service clock c (due ++ more) e := by
  have count : d.exchanges.length = c.exchanges.length + due.length := by
    simpa using congrArg List.length first.exchanges
  refine ⟨?_, ?_, second.standing⟩
  · rw [second.exchanges, first.exchanges, List.mapIdx_append, List.append_assoc, count]
    simp only [Nat.add_comm, Nat.add_left_comm]
  · intro r inside
    rcases List.mem_append.mp inside with early | late
    · exact first.proper r early
    · exact second.proper r late

theorem messageSent {r : Request} (stocked : Stocked service r) (clock : Clock) (n : Nat) :
    (Reply.send service.site (Reply.compose service clock.now (clock.age n) r {}).reply
      (Reply.compose service clock.now (clock.age n) r {}).output []).calls.flatMap Call.taken =
      (message service clock n r).text := Reply.composeSent stocked clock.now (clock.age n)

theorem answerSent (clock : Clock) (output : c.output = {}) (proper : Proper service c.request) :
    (answer service clock c).exchanges = exchange service clock c.exchanges.length c.request :: c.exchanges ∧
      ((exchange service clock c.exchanges.length c.request).request.keepsAlive = true →
        answer service clock c =
          { stage := c.stage
            intake := c.intake
            exchanges := exchange service clock c.exchanges.length c.request :: c.exchanges }) ∧
      ((exchange service clock c.exchanges.length c.request).request.keepsAlive = false →
        (answer service clock c).stage ≠ .serving) := by
  have sent := messageSent proper.stocked clock c.exchanges.length
  have ends : (Reply.send service.site (Reply.compose service clock.now (clock.age c.exchanges.length) c.request {}).reply
      (Reply.compose service clock.now (clock.age c.exchanges.length) c.request {}).output []).result = .ok () :=
    Reply.sendEnds proper.stocked
  simp only [answer, output, ends, sent, exchange]
  cases (Reply.compose service clock.now (clock.age c.exchanges.length) c.request {}).request.keepsAlive with
  | true => exact ⟨rfl, fun _ => rfl, by simp⟩
  | false => exact ⟨rfl, by simp, fun _ => by simp⟩

theorem answerAnswered (clock : Clock) (output : c.output = {}) (proper : Proper service c.request) :
    Answered service clock c [c.request] (answer service clock c) := by
  obtain ⟨latest, goesOn, stops⟩ := answerSent clock output proper
  refine ⟨by simp [latest], by simpa using proper, fun serves => ?_⟩
  cases keeps : (exchange service clock c.exchanges.length c.request).request.keepsAlive with
  | true =>
    rw [goesOn keeps]
    exact ⟨rfl, freshProper service⟩
  | false => exact absurd serves (stops keeps)

theorem driveAnswered (clock : Clock) (rounds : Nat) (standing : Standing service c) :
    Answered service clock c (dueDriving service clock rounds c) (drive service clock rounds c) := by
  induction rounds generalizing c with
  | zero => exact .none rfl standing
  | succ rounds ih =>
    simp only [drive, dueDriving]
    split
    · exact .none rfl standing
    · rename_i goesOn
      have serves : c.stage = .serving := by
        simp only [Bool.or_eq_true, not_or, bne_iff_ne, ne_eq, Decidable.not_not] at goesOn
        exact goesOn.2
      obtain ⟨output, proper⟩ := standing serves
      have read : Proper service (called service c).request := advanceProper proper c.intake
      split
      · have now : Answered service clock (called service c) [(called service c).request]
            (answer service clock (called service c)) := answerAnswered clock output read
        have here : Answered service clock c [(called service c).request] (answer service clock (called service c)) :=
          ⟨now.exchanges, now.proper, now.standing⟩
        exact here.append (ih now.standing)
      · exact .none rfl fun _ => ⟨output, read⟩

theorem deliverAnswered (clock : Clock) (read : Bytes) (standing : Standing service c) :
    Answered service clock c (dueDelivering service clock c read) (c.deliver service clock read) := by
  by_cases serves : c.stage = .serving
  · simp only [deliver, dueDelivering, serves]
    cases read.take service.limits.readLimit with
    | nil => exact .none rfl (by simp [Standing])
    | cons b rest =>
      have filled : Standing service { c with stage := .serving, intake := (c.intake.fill read service.limits.readLimit).1 } :=
        fun _ => standing serves
      have driven := driveAnswered clock (c.intake.fill read service.limits.readLimit).1.size filled
      exact ⟨driven.exchanges, driven.proper, driven.standing⟩
  · obtain ⟨same, stopped⟩ := deliverStopped service clock read serves
    have nothing : dueDelivering service clock c read = [] := by
      unfold dueDelivering
      split
      · contradiction
      · rfl
    rw [nothing]
    exact .none same fun still => absurd still stopped

theorem deliveriesAnswered (clock : Clock) (reads : List Bytes) (standing : Standing service c) :
    Answered service clock c (dueRunning service clock c reads) (reads.foldl (deliver service clock) c) := by
  induction reads generalizing c with
  | nil => exact .none rfl standing
  | cons read rest ih =>
    have now := deliverAnswered clock read standing
    exact now.append (ih now.standing)

theorem runAnswered (service : Service) (clock : Clock) (chunks : List Bytes) :
    Answered service clock {} (requestsDue service clock chunks) (run service clock chunks) :=
  deliveriesAnswered clock _ fun _ => ⟨rfl, freshProper service⟩

theorem messageSound {r : Request} (date : clock.now.unbroken = true) (proper : Proper service r) (n : Nat) :
    (message service clock n r).Sound := by
  have told := Head.lengthTold r.draft.method service.limits clock.now
    (Reply.ageRule service.limits (clock.age n) (Reply.handOver r)) (Reply.sizeOf (Reply.selected service r))
  have typed : Head.Typed (Reply.ageRule service.limits (clock.age n) (Reply.handOver r)) := by
    unfold Reply.ageRule Reply.handOver
    repeat' split
    all_goals exact proper.typed
  refine ⟨Head.forRequestPlain date typed, ?_⟩
  have size : (Reply.bodyTo service r).length =
      if r.draft.method = some .head then 0 else Reply.sizeOf (Reply.selected service r) := by
    rw [Reply.bodyTo, Reply.sizeContent proper.stocked]
    split
    · rfl
    · rfl
  rw [message, size]
  exact told

theorem messagesSound {due : List Request} (date : clock.now.unbroken = true) (proper : ∀ r ∈ due, Proper service r) :
    ∀ m ∈ due.mapIdx (message service clock), m.Sound := by
  intro m inside
  obtain ⟨n, short, rfl⟩ := List.mem_mapIdx.mp inside
  exact messageSound date (proper _ (List.getElem_mem short)) n

theorem responsesRecovered (service : Service) (clock : Clock) (chunks : List Bytes) (further : List (Option Method))
    (date : clock.now.unbroken = true) :
    let due := requestsDue service clock chunks
    let c := run service clock chunks
    c.exchanges.reverse = due.mapIdx (exchange service clock) ∧
    Client.decode (due.map (fun r => r.draft.method) ++ further) c.received =
      some (due.mapIdx fun n r => (message service clock n r).response) ∧
    (∀ r ∈ due, ∀ opened, Reply.selected service r = some opened → service.site.Holds opened) ∧
    (∀ e ∈ c.exchanges, Client.field? "Connection" e.head.fields = some (ascii "keep-alive") →
      ∃ length, Client.field? "Content-Length" e.head.fields = some (Decimal.write length)) := by
  intro due c
  have answered : Answered service clock {} due c := runAnswered service clock chunks
  have exchanges : c.exchanges.reverse = due.mapIdx (exchange service clock) := by
    simpa using answered.exchanges
  refine ⟨exchanges, ?_, fun r inside opened chosen => Reply.selectedHolds (answered.proper r inside).stocked chosen, ?_⟩
  · have methods : due.map (fun r => r.draft.method) = (due.mapIdx (message service clock)).map Client.Message.method := by
      apply List.ext_getElem (by simp)
      intro n _ _
      simp [message]
    have received : c.received = (due.mapIdx (message service clock)).flatMap Client.Message.text := by
      simp only [received, exchanges, List.flatMap, List.mapIdx_eq_zipIdx_map, List.map_map]
      rfl
    have decoded := Client.decodeMessages (messagesSound date answered.proper) further
    rw [← methods, ← received] at decoded
    simp only [decoded, List.mapIdx_eq_zipIdx_map, List.map_map]
    rfl
  · intro e inside keeps
    rw [← List.mem_reverse, exchanges] at inside
    obtain ⟨n, short, rfl⟩ := List.mem_mapIdx.mp inside
    simp only [exchange, Reply.compose, Head.connectionFound, Head.lengthFound] at keeps ⊢
    generalize Reply.ageRule service.limits (clock.age n) _ = r at keeps ⊢
    cases alive : r.keepsAlive with
    | true => exact ⟨_, if_pos (.inr rfl)⟩
    | false =>
      rw [alive] at keeps
      exact absurd keeps (by decide)

theorem responsesRecoveredOfThree :
    let service : Service := ⟨⟨[(ascii "a", .file [0x2a])]⟩, {}, ChainTable.byteHash⟩
    let clock : Clock := ⟨Calendar.httpDate 784111777, fun _ => 0⟩
    let chunks := [ascii "GET /a HTTP/1.1\r\n\r\nHEA", ascii "D /a HTTP/1.1\r\n\r\nGET /b HTTP/1.0\r\n\r\n"]
    clock.now.unbroken = true ∧
      ∃ responses, Client.decode [some .get, some .head, some .get] (run service clock chunks).received = some responses ∧
        responses.map Response.body = [[0x2a], [], []] := by
  intro service clock chunks
  have date : clock.now.unbroken = true := Calendar.datePlain _
  have methods : (requestsDue service clock chunks).map (fun r => r.draft.method) = [some .get, some .head, some .get] := by
    decide +kernel
  obtain ⟨_, decoded, _⟩ := responsesRecovered service clock chunks [] date
  rw [methods] at decoded
  exact ⟨date, _, decoded, by decide +kernel⟩

end Connection
end StaticHttp
