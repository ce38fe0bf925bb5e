import StaticHttp.Proofs.Delimited
import StaticHttp.Proofs.Parts
import StaticHttp.Proofs.Segmentation
/-! What the answers announce about their connection is what becomes of it. All of
them but the last keep it; the last one closes it exactly when nothing that is held
or still comes in can be answered any more. -/
namespace StaticHttp

namespace Exchange

def keepsOpen (e : Exchange) : Prop := Client.field? "Connection" e.head.fields = some (ascii "keep-alive")

def closes (e : Exchange) : Prop :=
  Client.field? "Connection" e.head.fields = some (ascii "close") ∧ Client.field? "Keep-Alive" e.head.fields = none

instance (e : Exchange) : Decidable e.closes := by unfold closes; infer_instance

theorem notBoth {e : Exchange} (closes : e.closes) : ¬ e.keepsOpen := by
  intro keeps
  have same : some (ascii "close") = some (ascii "keep-alive") := closes.1.symm.trans keeps
  exact absurd same (by decide)

end Exchange

namespace Connection
open Request (Pending Whole)

variable {service : Service} {clock : Clock} {c d : Connection} {stream : Bytes}

structure Kept (e : Exchange) : Prop where
  alive : e.request.keepsAlive = true
  status : e.head.status = .ok ∨ e.head.status = .notFound

/-- What has been read of the stream: the requests that were answered, and the part of
the next one that is there. -/
structure Division (service : Service) (clock : Clock) (stream : Bytes) (c : Connection) (parts : List Bytes)
    (rest : Bytes) : Prop where
  stream : stream = parts.flatten ++ rest
  whole : ∀ part ∈ parts, Whole service part
  written : c.exchanges.reverse.map Exchange.written =
    parts.mapIdx fun n part => (message service clock n (Request.advance service {} part).request).text
  pending : Pending c.request rest c.intake.unread
  like : ∀ tail, (Request.advance service {} (rest ++ tail)).Like
    (c.request.advance service (c.intake.unread ++ tail))

structure Course (service : Service) (clock : Clock) (stream : Bytes) (c : Connection) : Prop where
  serves : c.stage = .serving
  ready : Ready c
  proper : Proper service c.request
  kept : ∀ e ∈ c.exchanges, Kept e
  division : ∃ parts rest, Division service clock stream c parts rest

structure Idle (service : Service) (c : Connection) : Prop where
  parked : Parked service c
  small : c.intake.unread = [] ∨ c.intake.size < service.limits.headLimit

structure Ended (c : Connection) : Prop where
  stopped : c.stage ≠ .serving
  last : ∃ e others, c.exchanges = e :: others ∧ e.request.keepsAlive = false ∧ ∀ e ∈ others, Kept e

def Followed (service : Service) (clock : Clock) (stream : Bytes) (c : Connection) : Prop :=
  Course service clock stream c ∧ Idle service c ∨ Ended c

theorem exchangeKeeps {n : Nat} {r : Request} (keeps : (exchange service clock n r).request.keepsAlive = true) :
    r.keepsAlive = true ∧ ¬ clock.age n > service.limits.connectionTime := by
  simp only [exchange, Reply.compose, Reply.ageRule] at keeps
  split at keeps
  · contradiction
  · rename_i young
    refine ⟨?_, young⟩
    unfold Reply.handOver at keeps
    split at keeps
    · exact keeps
    · exact keeps

theorem exchangeCloses {n : Nat} {r : Request} (closes : (exchange service clock n r).request.keepsAlive = false) :
    (exchange service clock n r).closes := by
  refine ⟨?_, Head.keptTimeFound _ _ closes _⟩
  simp only [exchange, Reply.compose, Head.connectionFound] at closes ⊢
  rw [closes]
  rfl

theorem exchangeOpens {n : Nat} {r : Request} (keeps : (exchange service clock n r).request.keepsAlive = true) :
    (exchange service clock n r).keepsOpen := by
  simp only [Exchange.keepsOpen, exchange, Reply.compose, Head.connectionFound] at keeps ⊢
  rw [keeps]
  rfl

theorem messageParked (service : Service) (clock : Clock) (n : Nat) (r : Request) :
    message service clock n r.parked = message service clock n r := by
  simp only [message, Outlook.composeParked]
  rfl

theorem dueStatus {sent held : Bytes} {r : Request} (pending : Pending r sent held)
    (due : (r.advance service held).due = true) (keeps : (r.advance service held).request.keepsAlive = true) :
    (r.advance service held).request.status = .ok ∨ (r.advance service held).request.status = .notFound := by
  have call : Request.CallEnd service sent (r.advance service held) := pending.callEnd
  generalize r.advance service held = p at call due keeps
  cases call with
  | waits => contradiction
  | through _ _ _ status => exact status
  | refused known =>
    rw [Outlook.rejectCloses _ (Outlook.faultCloses known)] at keeps
    contradiction
  | crowded =>
    rw [Outlook.rejectCloses _ rfl] at keeps
    contradiction

theorem freshCourse (service : Service) (clock : Clock) : Course service clock [] {} := by
  have ready : Ready {} := ⟨⟨Nat.le_refl _, by decide⟩, rfl, [], Request.freshPending []⟩
  have division : Division service clock [] {} [] [] := ⟨rfl, by simp, rfl, Request.freshPending [], fun _ => .refl _⟩
  exact ⟨rfl, ready, freshProper service, by simp, [], [], division⟩

theorem Division.called {parts : List Bytes} {rest : Bytes} (division : Division service clock stream c parts rest)
    (ready : Ready c) (waits : (c.request.advance service c.intake.unread).due = false) :
    Division service clock stream (called service c) parts rest := by
  obtain ⟨_, request, unread, _⟩ := calledPlain service ready
  have pending := division.pending
  refine ⟨division.stream, division.whole, division.written, ?_, fun tail => ?_⟩
  · rw [request, unread]
    exact (Request.waitsPending pending waits).1
  · rw [request, unread]
    exact (division.like tail).trans (Request.advanceMore pending waits tail)

theorem calledCourse (course : Course service clock stream c) (some : c.intake.unread ≠ [])
    (waits : (c.request.advance service c.intake.unread).due = false) :
    Course service clock stream (called service c) ∧ Idle service (called service c) := by
  obtain ⟨_, _, unread, _⟩ := calledPlain service course.ready
  obtain ⟨next, parked, _⟩ := calledWaits course.ready some waits
  obtain ⟨parts, rest, division⟩ := course.division
  refine ⟨⟨course.serves, next, advanceProper course.proper c.intake, course.kept, parts, rest,
    division.called course.ready waits⟩, parked, ?_⟩
  rw [← OffsetBuffer.unreadLength, unread]
  exact Request.waitsSmall division.pending waits

theorem Division.wrote {parts : List Bytes} {rest part : Bytes} (division : Division service clock stream c parts rest)
    (latest : d.exchanges =
      exchange service clock c.exchanges.length (c.request.advance service c.intake.unread).request :: c.exchanges)
    (same : (Request.advance service {} part).request.parked = (c.request.advance service c.intake.unread).request.parked) :
    d.exchanges.reverse.map Exchange.written = (parts ++ [part]).mapIdx fun n part =>
      (message service clock n (Request.advance service {} part).request).text := by
  have count : parts.length = c.exchanges.length := by
    simpa using (congrArg List.length division.written).symm
  have text : (message service clock c.exchanges.length (Request.advance service {} part).request).text =
      (exchange service clock c.exchanges.length (c.request.advance service c.intake.unread).request).written := by
    rw [← messageParked, same, messageParked]
    rfl
  rw [latest, List.reverse_cons, List.map_append, division.written, List.mapIdx_append]
  simp [count, text]

theorem Division.answered {parts : List Bytes} {rest : Bytes} (division : Division service clock stream c parts rest)
    (due : (c.request.advance service c.intake.unread).due = true)
    (keeps : (c.request.advance service c.intake.unread).request.keepsAlive = true)
    (latest : d.exchanges =
      exchange service clock c.exchanges.length (c.request.advance service c.intake.unread).request :: c.exchanges)
    (fresh : d.request = {}) (left : d.intake.unread = (c.request.advance service c.intake.unread).buffer) :
    ∃ part, Division service clock stream d (parts ++ [part]) d.intake.unread := by
  have like := division.like []
  simp only [List.append_nil] at like
  obtain ⟨part, split⟩ : d.intake.unread <:+ rest := by
    rw [left, ← like.buffer]
    exact Request.advanceSuffix service {} rest
  have alone : Whole service part ∧ (Request.advance service {} part).request = (Request.advance service {} rest).request := by
    rw [← split] at like ⊢
    exact Request.wholePart (like.due ▸ due) (like.keeps ▸ keeps) (like.buffer.trans left.symm)
  obtain ⟨whole, same⟩ := alone
  refine ⟨part, ?_, ?_, division.wrote latest (by rw [same]; exact like.request), fresh ▸ Request.freshPending _, ?_⟩
  · rw [division.stream, ← split]
    simp
  · intro other inside
    rcases List.mem_append.mp inside with early | last
    · exact division.whole other early
    · obtain rfl := List.mem_singleton.mp last
      exact whole
  · intro tail
    rw [fresh]
    exact .refl _

theorem answeredCourse (course : Course service clock stream c)
    (due : (c.request.advance service c.intake.unread).due = true) :
    Course service clock stream (answer service clock (called service c)) ∧
        (answer service clock (called service c)).intake.size < c.intake.size ∨
      Ended (answer service clock (called service c)) := by
  obtain ⟨_, request, unread, sound⟩ := calledPlain service course.ready
  obtain ⟨sent, pending⟩ := course.ready.pending
  have proper : Proper service (called service c).request := advanceProper course.proper c.intake
  obtain ⟨latest, goesOn, stops⟩ := answerSent clock (c := called service c) course.ready.output proper
  have count : (called service c).exchanges = c.exchanges := rfl
  rw [request, count] at latest goesOn stops
  cases keeps : (exchange service clock c.exchanges.length
      (c.request.advance service c.intake.unread).request).request.keepsAlive with
  | false => exact .inr ⟨stops keeps, _, c.exchanges, latest, keeps, course.kept⟩
  | true =>
    have same := goesOn keeps
    have alive := (exchangeKeeps keeps).1
    have shorter := Outlook.consumes pending due alive
    obtain ⟨parts, rest, division⟩ := course.division
    have fresh : (answer service clock (called service c)).request = {} := by rw [same]
    have intake : (answer service clock (called service c)).intake = (called service c).intake := by rw [same]
    obtain ⟨part, longer⟩ := division.answered due alive latest fresh (by rw [intake, unread])
    refine .inl ⟨⟨?_, ?_, ?_, ?_, _, _, longer⟩, ?_⟩
    · rw [same]
      exact course.serves
    · rw [same]
      exact ⟨sound, rfl, _, Request.freshPending _⟩
    · rw [fresh]
      exact freshProper service
    · rw [latest]
      intro e inside
      rcases List.mem_cons.mp inside with rfl | earlier
      · refine ⟨keeps, ?_⟩
        rw [exchange, composedStatus]
        exact dueStatus pending due alive
      · exact course.kept e earlier
    · rw [intake, ← OffsetBuffer.unreadLength, ← OffsetBuffer.unreadLength, unread]
      exact shorter

theorem driveFollowed {rounds : Nat} (course : Course service clock stream c) (enough : c.intake.size ≤ rounds) :
    Followed service clock stream (drive service clock rounds c) := by
  -- On the rounds, as an answer after which the connection serves on has used up a byte.
  induction rounds generalizing c with
  | zero =>
    have nothing : c.intake.unread = [] := by
      rw [← List.length_eq_zero_iff, OffsetBuffer.unreadLength]
      omega
    rw [driveEmpty service clock 0 nothing]
    exact .inl ⟨course, .inl nothing, .inl nothing⟩
  | succ rounds ih =>
    by_cases some : c.intake.unread = []
    · rw [driveEmpty service clock (rounds + 1) some]
      exact .inl ⟨course, .inl some, .inl some⟩
    obtain ⟨plain, _⟩ := calledPlain service course.ready
    rw [driveSucc service clock rounds course.serves some, plain]
    split
    · rename_i due
      rcases answeredCourse course due with ⟨further, shorter⟩ | ended
      · exact ih further (by omega)
      · rw [driveStopped service clock rounds ended.stopped]
        exact .inr ended
    · rename_i waits
      exact .inl (calledCourse course some (Bool.eq_false_iff.mpr waits))

theorem Division.filled {parts : List Bytes} {rest read : Bytes} {intake : OffsetBuffer}
    (division : Division service clock stream c parts rest) (unread : intake.unread = c.intake.unread ++ read) :
    Division service clock (stream ++ read) { c with intake := intake } parts (rest ++ read) := by
  refine ⟨by rw [division.stream, List.append_assoc], division.whole, division.written, ?_, fun tail => ?_⟩
  · simp only [unread]
    exact division.pending.append read
  · simp only [unread, List.append_assoc]
    exact division.like (read ++ tail)

theorem filledCourse (read : Bytes) (course : Course service clock stream c)
    (small : read.length ≤ service.limits.readLimit) (fits : c.intake.size + read.length < Word.size) :
    Course service clock (stream ++ read) { c with intake := (c.intake.fill read service.limits.readLimit).1 } := by
  have whole : read.take service.limits.readLimit = read := List.take_of_length_le small
  have unread := c.intake.unreadFill read service.limits.readLimit
  rw [whole] at unread
  obtain ⟨sent, pending⟩ := course.ready.pending
  obtain ⟨parts, rest, division⟩ := course.division
  refine ⟨course.serves, ⟨OffsetBuffer.fillSound (by rw [whole]; exact fits), course.ready.output, sent ++ read, ?_⟩,
    course.proper, course.kept, parts, rest ++ read, division.filled unread⟩
  simp only [unread]
  exact pending.append read

theorem Ended.delivered (ended : Ended c) (service : Service) (clock : Clock) (read : Bytes) :
    Ended (c.deliver service clock read) := by
  obtain ⟨same, stopped⟩ := deliverStopped service clock read ended.stopped
  refine ⟨stopped, ?_⟩
  rw [same]
  exact ended.last

theorem deliverFollowed {read : Bytes} (followed : Followed service clock stream c) (some : read ≠ [])
    (small : read.length ≤ service.limits.readLimit) (fits : c.intake.size + read.length < Word.size) :
    Followed service clock (stream ++ read) (c.deliver service clock read) := by
  rcases followed with ⟨course, _⟩ | ended
  · rw [deliverServing course.serves some small]
    exact driveFollowed (filledCourse read course small fits) (Nat.le_refl _)
  · exact .inr (ended.delivered service clock read)

theorem deliveriesFollowed {reads : List Bytes} (followed : Followed service clock stream c)
    (each : ∀ read ∈ reads, read ≠ [] ∧ read.length ≤ service.limits.readLimit) (fits : Fits service clock c reads) :
    Followed service clock (stream ++ reads.flatten) (reads.foldl (deliver service clock) c) := by
  induction reads generalizing c stream with
  | nil => simpa using followed
  | cons read rest ih =>
    obtain ⟨some, small⟩ := each read (by simp)
    have now := deliverFollowed followed some small fits.1
    have later := ih now (fun read inside => each read (List.mem_cons_of_mem _ inside)) fits.2
    rw [List.flatten_cons, ← List.append_assoc]
    exact later

theorem runFollowed {chunks : List Bytes} (fits : Fits service clock {} (reads service chunks)) :
    Followed service clock (reads service chunks).flatten (run service clock chunks) := by
  have fresh : Followed service clock [] {} := .inl ⟨freshCourse service clock, .inl rfl, .inl rfl⟩
  exact deliveriesFollowed fresh (fun _ => readsEach) fits

theorem answeredLonger (course : Course service clock stream c) (rounds : Nat) (reads : List Bytes) :
    c.exchanges.length <
      (reads.foldl (deliver service clock)
        (drive service clock rounds (answer service clock (called service c)))).exchanges.length := by
  have proper : Proper service (called service c).request := advanceProper course.proper c.intake
  obtain ⟨latest, _⟩ := answerSent clock (c := called service c) course.ready.output proper
  have kept := (exchangesDrive service clock rounds (answer service clock (called service c))).trans
    (exchangesDeliveries service clock reads _)
  rw [latest] at kept
  exact kept.length_le

theorem singlesAnswered {text : Bytes} (course : Course service clock stream c) (idle : Idle service c)
    (word : service.limits.headLimit < Word.size) (readable : 1 ≤ service.limits.readLimit) (some : text ≠ [])
    (due : (c.request.advance service (c.intake.unread ++ text)).due = true) :
    c.exchanges.length < ((text.map fun b => [b]).foldl (deliver service clock) c).exchanges.length := by
  induction text generalizing c stream with
  | nil => contradiction
  | cons b rest ih =>
    have room : c.intake.size + [b].length < Word.size := by
      rcases idle.small with nothing | small
      · simp [← OffsetBuffer.unreadLength, nothing, Word.size]
      · simp only [List.length_singleton]
        omega
    have filled := filledCourse [b] course readable room
    have unread := c.intake.unreadFill [b] service.limits.readLimit
    rw [List.take_of_length_le (by exact readable)] at unread
    have served : c.deliver service clock [b] = _ := deliverServing course.serves (List.cons_ne_nil b []) readable
    rw [List.map_cons, List.foldl_cons, served]
    generalize (c.intake.fill [b] service.limits.readLimit).1 = intake at filled unread ⊢
    have there : intake.unread ≠ [] := by simp [unread]
    obtain ⟨rounds, size⟩ : ∃ rounds, intake.size = rounds + 1 := ⟨c.intake.unread.length, by
      simp [← OffsetBuffer.unreadLength, unread]⟩
    obtain ⟨plain, request, left, _⟩ := calledPlain service filled.ready
    rw [size, driveSucc service clock rounds filled.serves there, plain]
    split
    · exact answeredLonger filled rounds _
    · rename_i more
      have waits := Bool.eq_false_iff.mpr more
      obtain ⟨next, idle⟩ := calledCourse filled there waits
      obtain ⟨_, pending⟩ := filled.ready.pending
      have like := Request.advanceMore pending waits rest
      have whole : intake.unread ++ rest = c.intake.unread ++ b :: rest := by simp [unread]
      simp only [whole] at like
      have later : rest ≠ [] := by
        rintro rfl
        rw [← whole, List.append_nil] at due
        exact more due
      refine ih next idle later ?_
      rw [request, left, ← like.due]
      exact due

theorem runAppend (service : Service) (clock : Clock) (chunks more : List Bytes) :
    run service clock (chunks ++ more) = (reads service more).foldl (deliver service clock) (run service clock chunks) := by
  simp only [run, reads, List.flatMap_append, List.foldl_append]

theorem piecesShort {size : Nat} {bytes : Bytes} (some : bytes ≠ []) (short : bytes.length ≤ size) :
    pieces size bytes = [bytes] := by
  have positive := List.length_pos_iff.mpr some
  have cut : ¬ (size = 0 ∨ bytes = []) := by
    rintro (zero | none)
    · omega
    · exact some none
  rw [pieces, if_neg cut, List.take_of_length_le short, List.drop_of_length_le short, pieces, if_pos (.inr rfl)]

theorem readsSingles (readable : 1 ≤ service.limits.readLimit) (text : Bytes) :
    reads service (text.map fun b => [b]) = text.map fun b => [b] := by
  unfold reads
  induction text with
  | nil => rfl
  | cons b rest ih =>
    rw [List.map_cons, List.flatMap_cons, ih, piecesShort (by simp) readable, List.singleton_append]

theorem stoppedSilent (service : Service) (clock : Clock) (reads : List Bytes) (stopped : c.stage ≠ .serving) :
    (reads.foldl (deliver service clock) c).exchanges = c.exchanges := by
  induction reads generalizing c with
  | nil => rfl
  | cons read rest ih =>
    obtain ⟨same, still⟩ := deliverStopped service clock read stopped
    rw [List.foldl_cons, ih still, same]

theorem servesOn (course : Course service clock stream c) (idle : Idle service c)
    (word : service.limits.headLimit < Word.size) (readable : 1 ≤ service.limits.readLimit) :
    ∃ more, c.exchanges.length < ((reads service more).foldl (deliver service clock) c).exchanges.length := by
  obtain ⟨_, pending⟩ := course.ready.pending
  obtain ⟨text, some, due⟩ := Request.endable service pending
  refine ⟨text.map fun b => [b], ?_⟩
  rw [readsSingles readable]
  exact singlesAnswered course idle word readable some due

theorem Followed.kept (followed : Followed service clock stream c) {e : Exchange} (inside : e ∈ c.exchanges)
    (alive : e.request.keepsAlive = true) : Kept e := by
  rcases followed with ⟨course, _⟩ | ended
  · exact course.kept e inside
  · obtain ⟨last, others, all, closed, kept⟩ := ended.last
    rw [all] at inside
    rcases List.mem_cons.mp inside with rfl | earlier
    · rw [closed] at alive
      contradiction
    · exact kept e earlier

theorem Followed.tail (followed : Followed service clock stream c) {e : Exchange} (inside : e ∈ c.exchanges.tail) :
    Kept e := by
  rcases followed with ⟨course, _⟩ | ended
  · exact course.kept e (List.mem_of_mem_tail inside)
  · obtain ⟨last, others, all, _, kept⟩ := ended.last
    rw [all] at inside
    exact kept e inside

theorem Division.incomplete {parts : List Bytes} {rest : Bytes} (division : Division service clock stream c parts rest)
    (idle : Idle service c) : rest = [] ∨ (Request.advance service {} rest).due = false := by
  have like := division.like []
  simp only [List.append_nil] at like
  rw [like.due]
  rcases idle.parked with nothing | waits
  · have pending := division.pending
    rw [nothing] at pending ⊢
    exact Request.emptyWaits service pending
  · exact .inr waits

theorem receivedGrows (kept : c.exchanges <:+ d.exchanges) (longer : c.exchanges.length < d.exchanges.length)
    (some : ∀ e ∈ d.exchanges, e.written ≠ []) : d.received ≠ c.received := by
  obtain ⟨extra, all⟩ := kept
  intro same
  have more : extra.reverse.flatMap Exchange.written = [] := by
    have parts : d.received = c.received ++ extra.reverse.flatMap Exchange.written := by
      simp only [received, ← all, List.reverse_append, List.flatMap_append]
    exact List.append_right_eq_self.mp (parts.symm.trans same)
  cases extra with
  | nil => simp [← all] at longer
  | cons e others =>
    have none := List.flatMap_eq_nil_iff.mp more e (by simp)
    exact some e (by simp [← all]) none

theorem exchangeWritten (service : Service) (clock : Clock) (n : Nat) (r : Request) :
    (exchange service clock n r).written ≠ [] := by
  simp [exchange, Client.Message.text, Head.renderLines, Client.blankLine, Head.lineEnd]

theorem runExchange {chunks : List Bytes} {n : Nat} {e : Exchange}
    (there : (run service clock chunks).exchanges.reverse[n]? = some e) : ∃ r, e = exchange service clock n r := by
  have exchanges : (run service clock chunks).exchanges.reverse =
      (requestsDue service clock chunks).mapIdx (exchange service clock) := by
    simpa using (runAnswered service clock chunks).exchanges
  rw [exchanges, List.getElem?_mapIdx] at there
  obtain ⟨r, _, same⟩ := Option.map_eq_some_iff.mp there
  exact ⟨r, same.symm⟩

theorem runMember {chunks : List Bytes} {e : Exchange} (inside : e ∈ (run service clock chunks).exchanges) :
    ∃ n r, e = exchange service clock n r := by
  obtain ⟨n, there⟩ := List.getElem?_of_mem (List.mem_reverse.mpr inside)
  obtain ⟨r, same⟩ := runExchange there
  exact ⟨n, r, same⟩

theorem runAnnounces {chunks : List Bytes} {e : Exchange} (inside : e ∈ (run service clock chunks).exchanges) :
    (e.keepsOpen ↔ e.request.keepsAlive = true) ∧ (e.closes ↔ e.request.keepsAlive = false) := by
  obtain ⟨n, r, rfl⟩ := runMember inside
  cases keeps : (exchange service clock n r).request.keepsAlive with
  | true =>
    have opens := exchangeOpens keeps
    exact ⟨iff_of_true opens rfl, iff_of_false (fun closes => Exchange.notBoth closes opens) (by simp)⟩
  | false =>
    have closes := exchangeCloses keeps
    exact ⟨iff_of_false (Exchange.notBoth closes) (by simp), iff_of_true closes rfl⟩

theorem Followed.stage (followed : Followed service clock stream c) {e : Exchange} (last : c.exchanges.head? = some e) :
    c.stage = .serving ↔ e.request.keepsAlive = true := by
  rcases followed with ⟨course, _⟩ | ended
  · exact iff_of_true course.serves (course.kept e (List.mem_of_mem_head? last)).alive
  · obtain ⟨latest, others, all, closed, _⟩ := ended.last
    rw [all] at last
    obtain rfl := Option.some.inj last
    exact iff_of_false ended.stopped (by simp [closed])

theorem readable {chunks : List Bytes} {e : Exchange} (last : (run service clock chunks).exchanges.head? = some e) :
    1 ≤ service.limits.readLimit := by
  by_cases zero : service.limits.readLimit = 0
  · have nothing : run service clock chunks = {} := congrArg (List.foldl (deliver service clock) {}) (readsNothing zero chunks)
    rw [nothing] at last
    contradiction
  · exact Nat.pos_of_ne_zero zero

section
variable {chunks : List Bytes} (course : Course service clock (reads service chunks).flatten (run service clock chunks))
  (idle : Idle service (run service clock chunks)) (readable : 1 ≤ service.limits.readLimit)
include course idle readable

theorem runGoesOn (word : service.limits.headLimit < Word.size) :
    ∃ more, (run service clock (chunks ++ more)).received ≠ (run service clock chunks).received := by
  obtain ⟨more, longer⟩ := servesOn course idle word readable
  rw [← runAppend] at longer
  have kept : (run service clock chunks).exchanges <:+ (run service clock (chunks ++ more)).exchanges := by
    rw [runAppend]
    exact exchangesDeliveries service clock _ _
  refine ⟨more, receivedGrows kept longer fun e inside => ?_⟩
  obtain ⟨n, r, rfl⟩ := runMember inside
  exact exchangeWritten service clock n r

theorem runDivided : ∃ (parts : List Bytes) (rest : Bytes), chunks.flatten = parts.flatten ++ rest ∧
    (run service clock chunks).exchanges.reverse.map Exchange.written =
      parts.mapIdx (fun n part => (message service clock n (Request.advance service {} part).request).text) ∧
    (∀ part ∈ parts, Whole service part) ∧ (rest = [] ∨ (Request.advance service {} rest).due = false) := by
  obtain ⟨parts, rest, division⟩ := course.division
  refine ⟨parts, rest, ?_, division.written, division.whole, division.incomplete idle⟩
  rw [← division.stream, readsFlatten (Nat.ne_of_gt readable)]

end

end Connection
end StaticHttp
