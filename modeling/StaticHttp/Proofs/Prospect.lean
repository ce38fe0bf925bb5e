import StaticHttp.Proofs.Offset
import StaticHttp.Proofs.Outlook
/-! A connection answers the stream it reads, not its reads. At every moment the
answers that are out, and those the stream still has in it from the held bytes
on, are the answers to the whole stream. -/
namespace StaticHttp.Connection
open Request (Pending CallEnd Crowded)
open Outlook (answerTo outlook)

def given (c : Connection) : List Bytes := c.exchanges.reverse.map Exchange.written

def Calm (c : Connection) : Prop := ∀ e ∈ c.exchanges, e.head.status ≠ .requestHeaderFieldsTooLarge

instance (c : Connection) : Decidable (Calm c) := by unfold Calm; infer_instance

variable {service : Service} {clock : Clock} {c : Connection}

theorem composedStatus (service : Service) (now : Bytes) (age : Duration) (r : Request) (output : OffsetBuffer) :
    (Reply.compose service now age r output).head.status = r.status := by
  simp only [Reply.compose, Head.forRequest, Reply.ageRule, Reply.handOver]
  repeat' split
  all_goals rfl

theorem answerStep (service : Service) (clock : Clock) {c : Connection} (output : c.output = {}) :
    ∃ e : Exchange, e.written = (answerTo service clock.now (clock.age c.exchanges.length) c.request).written ∧
      e.head.status = c.request.status ∧
      (answer service clock c).exchanges = e :: c.exchanges ∧
      ((answerTo service clock.now (clock.age c.exchanges.length) c.request).goesOn = true →
        answer service clock c = { stage := c.stage, intake := c.intake, exchanges := e :: c.exchanges }) ∧
      ((answerTo service clock.now (clock.age c.exchanges.length) c.request).goesOn = false →
        (answer service clock c).stage ≠ .serving) := by
  have status := composedStatus service clock.now (clock.age c.exchanges.length) c.request {}
  simp only [answer, answerTo, output]
  generalize Reply.compose service clock.now (clock.age c.exchanges.length) c.request {} = composed at status ⊢
  generalize Reply.send service.site composed.reply composed.output [] = attempt
  refine ⟨⟨composed.request, composed.head, attempt.calls.flatMap Call.taken⟩, rfl, status, ?_⟩
  cases ended : attempt.result with
  | error fault => simp [Except.isOk, Except.toBool]
  | ok =>
    cases keeps : composed.request.keepsAlive with
    | true => simp [Except.isOk, Except.toBool, OffsetBuffer.clear]
    | false => simp [Except.isOk, Except.toBool]

def called (service : Service) (c : Connection) : Connection :=
  { c with
    request := (c.request.advance service c.intake).request
    intake := (c.request.advance service c.intake).buffer }

theorem driveStopped (service : Service) (clock : Clock) (rounds : Nat) (stopped : c.stage ≠ .serving) :
    drive service clock rounds c = c := by
  cases rounds with
  | zero => rfl
  | succ rounds => simp [drive, stopped]

theorem exchangesAnswer (service : Service) (clock : Clock) (c : Connection) :
    c.exchanges <:+ (answer service clock c).exchanges := by
  simp only [answer]
  repeat' split
  all_goals exact List.suffix_cons _ _

theorem exchangesDrive (service : Service) (clock : Clock) (rounds : Nat) (c : Connection) :
    c.exchanges <:+ (drive service clock rounds c).exchanges := by
  induction rounds generalizing c with
  | zero => exact List.suffix_refl _
  | succ rounds ih =>
    simp only [drive]
    split
    · exact List.suffix_refl _
    · split
      · exact List.IsSuffix.trans (exchangesAnswer service clock (called service c)) (ih _)
      · exact List.suffix_refl _

theorem exchangesDeliver (service : Service) (clock : Clock) (c : Connection) (read : Bytes) :
    c.exchanges <:+ (c.deliver service clock read).exchanges := by
  simp only [deliver]
  split
  · exact List.suffix_refl _
  · exact List.suffix_refl _
  · exact List.suffix_refl _
  · exact exchangesDrive service clock _ { c with intake := (c.intake.fill read service.limits.readLimit).1 }

theorem exchangesDeliveries (service : Service) (clock : Clock) (reads : List Bytes) (c : Connection) :
    c.exchanges <:+ (reads.foldl (deliver service clock) c).exchanges := by
  induction reads generalizing c with
  | nil => exact List.suffix_refl _
  | cons read rest ih => exact (exchangesDeliver service clock c read).trans (ih _)

theorem Calm.before {d : Connection} (calm : Calm d) (kept : c.exchanges <:+ d.exchanges) : Calm c :=
  fun e inside => calm e (kept.subset inside)

/-- The answers that are out and those that the held bytes and the rest have in them. -/
def prospect (service : Service) (clock : Clock) (c : Connection) (rest : Bytes) : List Bytes :=
  c.given ++
    if c.stage = .serving then outlook service clock c.exchanges.length c.request (c.intake.unread ++ rest)
    else []

structure Ready (c : Connection) : Prop where
  sound : c.intake.Sound
  output : c.output = {}
  pending : ∃ sent, Pending c.request sent c.intake.unread

def Parked (service : Service) (c : Connection) : Prop :=
  c.intake.unread = [] ∨ (c.request.advance service c.intake.unread).due = false

theorem driveSucc (service : Service) (clock : Clock) (rounds : Nat) (serves : c.stage = .serving)
    (some : c.intake.unread ≠ []) :
    drive service clock (rounds + 1) c =
      if (c.request.advance service c.intake).due then
        drive service clock rounds (answer service clock (called service c))
      else called service c := by
  have filled : c.intake.isEmpty = false := Bool.eq_false_iff.mpr fun empty => some (c.intake.isEmptyIff.mp empty)
  simp only [drive, filled, serves, called]
  rfl

theorem driveEmpty (service : Service) (clock : Clock) (rounds : Nat) (nothing : c.intake.unread = []) :
    drive service clock rounds c = c := by
  have empty : c.intake.isEmpty = true := c.intake.isEmptyIff.mpr nothing
  cases rounds with
  | zero => rfl
  | succ rounds => simp [drive, empty]

theorem givenCons {d : Connection} {e : Exchange} (longer : d.exchanges = e :: c.exchanges) :
    d.given = c.given ++ [e.written] := by
  simp [given, longer]

theorem calledPlain (service : Service) (ready : Ready c) :
    (c.request.advance service c.intake).due = (c.request.advance service c.intake.unread).due ∧
      (called service c).request = (c.request.advance service c.intake.unread).request ∧
      (called service c).intake.unread = (c.request.advance service c.intake.unread).buffer ∧
      (called service c).intake.Sound := by
  obtain ⟨_, pending⟩ := ready.pending
  obtain ⟨plain, out⟩ := Request.advancePlain service ready.sound pending
  rw [← plain]
  exact ⟨rfl, rfl, rfl, out.sound⟩

theorem calledWaits (ready : Ready c) (some : c.intake.unread ≠ [])
    (waits : (c.request.advance service c.intake.unread).due = false) :
    Ready (called service c) ∧ Parked service (called service c) ∧
      ∀ clock rest, c.stage = .serving → prospect service clock c rest = prospect service clock (called service c) rest := by
  obtain ⟨_, request, unread, sound⟩ := calledPlain service ready
  obtain ⟨sent, pending⟩ := ready.pending
  have ended : CallEnd service sent (c.request.advance service c.intake.unread) := pending.callEnd
  have again := Request.advanceMore pending waits []
  have still : Pending (c.request.advance service c.intake.unread).request sent
      (c.request.advance service c.intake.unread).buffer := by
    generalize c.request.advance service c.intake.unread = q at ended waits
    cases ended with
    | waits pending => exact pending
    | through => contradiction
    | refused => contradiction
    | crowded => contradiction
  refine ⟨⟨sound, ready.output, sent, by rw [request, unread]; exact still⟩, .inr ?_, fun clock rest serves => ?_⟩
  · rw [request, unread]
    simp only [List.append_nil] at again
    rw [← again.due]
    exact waits
  · have onward := Outlook.outlookMore clock c.exchanges.length pending some waits rest
    rw [prospect, prospect, if_pos serves, if_pos (show (called service c).stage = .serving from serves), request,
      unread, onward]
    rfl

theorem calledAnswered (serves : c.stage = .serving) (ready : Ready c) (some : c.intake.unread ≠ [])
    (ended : (c.request.advance service c.intake.unread).due = true)
    (calm : Calm (answer service clock (called service c))) (rest : Bytes) :
    prospect service clock c rest = prospect service clock (answer service clock (called service c)) rest ∧
      ((answer service clock (called service c)).stage = .serving →
        Ready (answer service clock (called service c)) ∧
          (answer service clock (called service c)).intake.size < c.intake.size) := by
  obtain ⟨_, request, unread, sound⟩ := calledPlain service ready
  obtain ⟨sent, pending⟩ := ready.pending
  obtain ⟨e, written, status, longer, goesOn, stops⟩ := answerStep service clock (c := called service c) ready.output
  -- A head found too long would be answered as such.
  have short : ¬ Crowded service c.request c.intake.unread := by
    intro long
    obtain ⟨_, rejected⟩ := Request.crowdedRejected long
    refine calm e (by simp [longer]) ?_
    rw [status, request, rejected]
    rfl
  have onward := Outlook.outlookDue clock c.exchanges.length pending some ended short rest
  have given : (answer service clock (called service c)).given = c.given ++ [e.written] := givenCons longer
  have count : (called service c).exchanges = c.exchanges := rfl
  rw [request, count] at written goesOn stops
  cases further : (answerTo service clock.now (clock.age c.exchanges.length)
      (c.request.advance service c.intake.unread).request).goesOn with
  | false =>
    have stopped := stops further
    refine ⟨?_, fun still => absurd still stopped⟩
    simp [prospect, serves, stopped, given, onward, further, written]
  | true =>
    have same := goesOn further
    have stage : (answer service clock (called service c)).stage = .serving := by rw [same]; exact serves
    have intake : (answer service clock (called service c)).intake = (called service c).intake := by rw [same]
    have fresh : (answer service clock (called service c)).request = {} := by rw [same]
    have shorter := Outlook.consumes pending ended (Outlook.composedKeeps further)
    refine ⟨?_, fun _ => ⟨?_, ?_⟩⟩
    · rw [prospect, prospect, if_pos serves, if_pos stage, given, onward, if_pos further, longer, intake, unread,
        fresh, written, List.append_assoc]
      rfl
    · rw [same]
      exact ⟨sound, rfl, _, Request.freshPending _⟩
    · rw [intake, ← OffsetBuffer.unreadLength, ← OffsetBuffer.unreadLength, unread]
      exact shorter

theorem driveProspect {rounds : Nat} (serves : c.stage = .serving) (ready : Ready c) (enough : c.intake.size ≤ rounds)
    (calm : Calm (drive service clock rounds c)) (rest : Bytes) :
    prospect service clock c rest = prospect service clock (drive service clock rounds c) rest ∧
      ((drive service clock rounds c).stage = .serving →
        Ready (drive service clock rounds c) ∧ Parked service (drive service clock rounds c)) := by
  -- On the rounds, of which there are as many as held bytes: an answer after which
  -- the connection serves on has used up a byte.
  induction rounds generalizing c with
  | zero =>
    have nothing : c.intake.unread = [] := by
      rw [← List.length_eq_zero_iff, OffsetBuffer.unreadLength]
      omega
    rw [driveEmpty service clock 0 nothing]
    exact ⟨rfl, fun _ => ⟨ready, .inl nothing⟩⟩
  | succ rounds ih =>
    by_cases some : c.intake.unread = []
    · rw [driveEmpty service clock (rounds + 1) some]
      exact ⟨rfl, fun _ => ⟨ready, .inl some⟩⟩
    obtain ⟨due, _⟩ := calledPlain service ready
    rw [driveSucc service clock rounds serves some, due] at calm ⊢
    by_cases ended : (c.request.advance service c.intake.unread).due = true
    · rw [if_pos ended] at calm ⊢
      have now : Calm (answer service clock (called service c)) := calm.before (exchangesDrive service clock rounds _)
      obtain ⟨same, further⟩ := calledAnswered serves ready some ended now rest
      by_cases stage : (answer service clock (called service c)).stage = .serving
      · obtain ⟨next, shorter⟩ := further stage
        rw [same]
        exact ih stage next (by omega) calm
      · rw [driveStopped service clock rounds stage]
        exact ⟨same, fun still => absurd still stage⟩
    · rw [if_neg ended] at calm ⊢
      obtain ⟨next, parked, same⟩ := calledWaits ready some (Bool.eq_false_iff.mpr ended)
      exact ⟨same clock rest serves, fun _ => ⟨next, parked⟩⟩

theorem deliverServing {read : Bytes} (serves : c.stage = .serving) (some : read ≠ [])
    (small : read.length ≤ service.limits.readLimit) :
    c.deliver service clock read =
      drive service clock (c.intake.fill read service.limits.readLimit).1.size
        { c with intake := (c.intake.fill read service.limits.readLimit).1 } := by
  have whole : read.take service.limits.readLimit = read := List.take_of_length_le small
  simp only [deliver, serves, whole]

theorem deliverStopped (service : Service) (clock : Clock) (read : Bytes) (stopped : c.stage ≠ .serving) :
    (c.deliver service clock read).exchanges = c.exchanges ∧
      (c.deliver service clock read).stage ≠ .serving := by
  simp only [deliver]
  split
  · exact ⟨rfl, stopped⟩
  · simp
  · rename_i draining _
    simp [draining]
  · rename_i serves _
    exact absurd serves stopped

theorem deliverProspect {read : Bytes} (some : read ≠ []) (small : read.length ≤ service.limits.readLimit)
    (fits : c.intake.size + read.length < Word.size) (ready : c.stage = .serving → Ready c)
    (calm : Calm (c.deliver service clock read)) (rest : Bytes) :
    prospect service clock c (read ++ rest) = prospect service clock (c.deliver service clock read) rest ∧
      ((c.deliver service clock read).stage = .serving →
        Ready (c.deliver service clock read) ∧ Parked service (c.deliver service clock read)) := by
  by_cases serves : c.stage = .serving
  · have whole : read.take service.limits.readLimit = read := List.take_of_length_le small
    have unread := c.intake.unreadFill read service.limits.readLimit
    obtain ⟨_, output, sent, pending⟩ := ready serves
    rw [whole] at unread
    rw [deliverServing serves some small] at calm ⊢
    generalize filling : (c.intake.fill read service.limits.readLimit).1 = filled at unread calm ⊢
    have next : Ready { c with intake := filled } := by
      refine ⟨filling ▸ OffsetBuffer.fillSound (by rw [whole]; exact fits), output, sent ++ read, ?_⟩
      simp only [unread]
      exact pending.append read
    have driven := driveProspect (c := { c with intake := filled }) serves next (Nat.le_refl _) calm rest
    refine ⟨?_, driven.2⟩
    rw [← driven.1]
    simp only [prospect, serves, if_true, unread, List.append_assoc]
    rfl
  · obtain ⟨exchanges, stopped⟩ := deliverStopped service clock read serves
    refine ⟨?_, fun still => absurd still stopped⟩
    simp only [prospect, if_neg serves, if_neg stopped, given, exchanges]

end StaticHttp.Connection
