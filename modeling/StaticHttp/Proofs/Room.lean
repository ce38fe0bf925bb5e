import StaticHttp.Proofs.Accounting
import StaticHttp.Proofs.Policy
/-! How much a connection holds. A request that waits holds fewer bytes than a head may
have, or none, and a connection that discards begins each read with nothing. So no more
than a head and one read are ever held, and every head that is accepted is among them. -/
namespace StaticHttp

namespace OffsetBuffer

theorem fillStored (b : OffsetBuffer) (source : Bytes) (chunk : Nat) :
    (b.fill source chunk).1.stored.length ≤ b.size + (source.take chunk).length := by
  simp only [fill, land]
  exact List.length_take_le _ _

theorem sizeStored (b : OffsetBuffer) : b.size ≤ b.stored.length := Nat.sub_le _ _

end OffsetBuffer

namespace Connection
open Request (Pending)
open HeadEnd (IsHead)

def asked (c : Connection) : OffsetBuffer := if c.stage = .draining then c.intake.clear else c.intake

def entered (service : Service) (c : Connection) (read : Bytes) : Connection :=
  { c with intake := (c.asked.fill read service.limits.readLimit).1 }

/- What `drive` goes through, with the connection it starts from: every call and every
answer makes another point. -/
def driven (service : Service) (clock : Clock) : Nat → Connection → List Connection
  | 0, c => [c]
  | rounds + 1, c =>
      if c.intake.isEmpty || c.stage != .serving then [c]
      else if (c.request.advance service c.intake).due then
        c :: called service c :: driven service clock rounds (answer service clock (called service c))
      else [c, called service c]

def passed (service : Service) (clock : Clock) (c : Connection) (read : Bytes) : List Connection :=
  match c.stage, read.take service.limits.readLimit with
  | .closed, _ => [c]
  | _, [] => [{ c with stage := .closed }]
  | _, _ => driven service clock (entered service c read).intake.size (entered service c read)

def points (service : Service) (clock : Clock) : Connection → List Bytes → List Connection
  | c, [] => [c]
  | c, read :: rest => c :: (passed service clock c read ++ points service clock (c.deliver service clock read) rest)

variable {service : Service} {clock : Clock} {c : Connection} {stream : Bytes}

theorem drivenStopped (service : Service) (clock : Clock) (rounds : Nat) (stopped : c.stage ≠ .serving) :
    driven service clock rounds c = [c] := by
  cases rounds with
  | zero => rfl
  | succ rounds => simp [driven, stopped]

theorem drivenLast (service : Service) (clock : Clock) (rounds : Nat) (c : Connection) :
    (driven service clock rounds c).getLast? = some (drive service clock rounds c) := by
  induction rounds generalizing c with
  | zero => rfl
  | succ rounds ih =>
    simp only [driven, drive, called]
    split
    · rfl
    · split
      · rw [List.getLast?_cons_cons, List.getLast?_cons, ih]
        rfl
      · rfl

theorem passedLast (service : Service) (clock : Clock) (c : Connection) (read : Bytes) :
    (passed service clock c read).getLast? = some (c.deliver service clock read) := by
  cases stage : c.stage with
  | closed => simp only [passed, deliver, stage, List.getLast?_singleton]
  | draining =>
    simp only [passed, deliver, stage]
    cases read.take service.limits.readLimit with
    | nil => rfl
    | cons b more =>
      simp only [drivenLast, entered, asked, stage, if_true]
      rw [driveStopped service clock _ (by simp)]
  | serving =>
    have same : c.asked = c.intake := by simp [asked, stage]
    simp only [passed, deliver, stage]
    cases read.take service.limits.readLimit with
    | nil => rfl
    | cons b more => simp only [drivenLast, entered, same, stage]

theorem pointsLast (service : Service) (clock : Clock) (c : Connection) (reads : List Bytes) :
    (points service clock c reads).getLast? = some (reads.foldl (deliver service clock) c) := by
  induction reads generalizing c with
  | nil => rfl
  | cons read rest ih =>
    rw [points, ← List.cons_append, List.getLast?_append, ih]
    rfl

def room (service : Service) : Nat := service.limits.headLimit + service.limits.readLimit

def ShortHead (service : Service) (bytes : Bytes) : Prop :=
  ∀ head, IsHead head → head <+: bytes → head.length ≤ room service

theorem ShortHead.front {bytes part : Bytes} (short : ShortHead service bytes) (front : part <+: bytes) :
    ShortHead service part :=
  fun head isHead inside => short head isHead (inside.trans front)

theorem shortHeld {bytes : Bytes} (few : bytes.length ≤ room service) : ShortHead service bytes :=
  fun _ _ inside => Nat.le_trans inside.length_le few

theorem ShortHead.filled {rest held read : Bytes} {r : Request} (short : ShortHead service rest)
    (pending : Pending r rest held) (few : (held ++ read).length ≤ room service) : ShortHead service (rest ++ read) := by
  by_cases reading : r.inHead = true
  · rw [pending.headHeld reading]
    exact shortHeld few
  · intro head isHead inside
    cases pending.waits with
    | line line => exact absurd line.inHead reading
    | headers headers => exact absurd headers.inHead reading
    | body _ _ parted =>
      have same := HeadEnd.headUnique isHead parted.isHead inside (parted.front.trans (List.prefix_append _ _))
      rw [same]
      exact short _ parted.isHead parted.front

structure Roomy (service : Service) (clock : Clock) (stream : Bytes) (c : Connection) (parts : List Bytes)
    (rest : Bytes) : Prop where
  division : Division service clock stream c parts rest
  short : ∀ part ∈ parts, ShortHead service part
  shortRest : ShortHead service rest

structure Shares (service : Service) (clock : Clock) (stream : Bytes) (c : Connection) (parts : List Bytes)
    (rest : Bytes) : Prop where
  stream : stream = parts.flatten ++ rest
  written : c.exchanges.reverse.map Exchange.written =
    parts.mapIdx fun n part => (message service clock n (Request.advance service {} part).request).text
  due : ∀ part ∈ parts, (Request.advance service {} part).due = true
  short : ∀ part ∈ parts, ShortHead service part

inductive Headed (service : Service) (clock : Clock) (stream : Bytes) (c : Connection) : Prop where
  | serves {parts : List Bytes} {rest : Bytes} (roomy : Roomy service clock stream c parts rest)
  | ended {parts : List Bytes} {rest : Bytes} (stopped : c.stage ≠ .serving)
      (shares : Shares service clock stream c parts rest)

theorem Headed.shares (headed : Headed service clock stream c) :
    ∃ parts rest, Shares service clock stream c parts rest := by
  cases headed with
  | serves roomy =>
    have division := roomy.division
    exact ⟨_, _, division.stream, division.written, fun part inside => (division.whole part inside).due, roomy.short⟩
  | ended _ shares => exact ⟨_, _, shares⟩

theorem calledStored (service : Service) (ready : Ready c) :
    (called service c).intake.stored.length ≤ c.intake.stored.length := by
  obtain ⟨_, pending⟩ := ready.pending
  obtain ⟨_, out⟩ := Request.advancePlain service ready.sound pending
  exact out.stored

theorem answerIntake (service : Service) (clock : Clock) (c : Connection) :
    (answer service clock c).intake = c.intake := by
  simp only [answer]
  repeat' split
  all_goals rfl

theorem drivenStored (course : Course service clock stream c) (rounds : Nat) :
    ∀ p ∈ driven service clock rounds c, p.intake.stored.length ≤ c.intake.stored.length := by
  induction rounds generalizing c with
  | zero => simp [driven]
  | succ rounds ih =>
    have called := calledStored service course.ready
    obtain ⟨plain, _⟩ := calledPlain service course.ready
    intro p inside
    simp only [driven] at inside
    split at inside
    · obtain rfl := List.mem_singleton.mp inside
      exact Nat.le_refl _
    · split at inside
      · rename_i due
        rcases List.mem_cons.mp inside with rfl | later
        · exact Nat.le_refl _
        rcases List.mem_cons.mp later with rfl | later
        · exact called
        rw [← answerIntake service clock (Connection.called service c)] at called
        rcases answeredCourse course (plain ▸ due) with ⟨further, _⟩ | ended
        · exact Nat.le_trans (ih further p later) called
        · rw [drivenStopped service clock rounds ended.stopped] at later
          obtain rfl := List.mem_singleton.mp later
          exact called
      · rcases List.mem_cons.mp inside with rfl | later
        · exact Nat.le_refl _
        · obtain rfl := List.mem_singleton.mp later
          exact called

theorem answeredHeaded {parts : List Bytes} {rest : Bytes} (course : Course service clock stream c)
    (roomy : Roomy service clock stream c parts rest) (few : c.intake.unread.length ≤ room service)
    (due : (c.request.advance service c.intake.unread).due = true) :
    Headed service clock stream (answer service clock (called service c)) := by
  have division := roomy.division
  obtain ⟨_, request, unread, _⟩ := calledPlain service course.ready
  have proper : Proper service (called service c).request := advanceProper course.proper c.intake
  obtain ⟨latest, goesOn, stops⟩ := answerSent clock (c := called service c) course.ready.output proper
  have count : (called service c).exchanges = c.exchanges := rfl
  rw [request, count] at latest goesOn stops
  have shortParts {part : Bytes} (front : part <+: rest) : ∀ other ∈ parts ++ [part], ShortHead service other := by
    intro other inside
    rcases List.mem_append.mp inside with early | last
    · exact roomy.short other early
    · obtain rfl := List.mem_singleton.mp last
      exact roomy.shortRest.front front
  cases keeps : (exchange service clock c.exchanges.length
      (c.request.advance service c.intake.unread).request).request.keepsAlive with
  | true =>
    have same := goesOn keeps
    have fresh : (answer service clock (called service c)).request = {} := by rw [same]
    have left : (answer service clock (called service c)).intake.unread =
        (c.request.advance service c.intake.unread).buffer := by rw [answerIntake, unread]
    obtain ⟨part, longer⟩ := division.answered due (exchangeKeeps keeps).1 latest fresh left
    have split : rest = part ++ (answer service clock (called service c)).intake.unread := by
      have streams := division.stream.symm.trans longer.stream
      simpa using streams
    refine .serves ⟨longer, shortParts ⟨_, split.symm⟩, shortHeld (Nat.le_trans ?_ few)⟩
    rw [left]
    exact (Request.advanceSuffix service c.request c.intake.unread).length_le
  | false =>
    have like := division.like []
    simp only [List.append_nil] at like
    have whole : stream = (parts ++ [rest]).flatten ++ [] := by simp [division.stream]
    refine .ended (stops keeps) ⟨whole, division.wrote latest like.request, ?_, shortParts (List.prefix_refl _)⟩
    intro other inside
    rcases List.mem_append.mp inside with early | last
    · exact (division.whole other early).due
    · obtain rfl := List.mem_singleton.mp last
      exact like.due.trans due

theorem driveHeaded {parts : List Bytes} {rest : Bytes} (course : Course service clock stream c)
    (roomy : Roomy service clock stream c parts rest) (few : c.intake.unread.length ≤ room service) (rounds : Nat) :
    Headed service clock stream (drive service clock rounds c) := by
  induction rounds generalizing c parts rest with
  | zero => exact .serves roomy
  | succ rounds ih =>
    by_cases some : c.intake.unread = []
    · rw [driveEmpty service clock (rounds + 1) some]
      exact .serves roomy
    obtain ⟨plain, _, unread, _⟩ := calledPlain service course.ready
    rw [driveSucc service clock rounds course.serves some, plain]
    split
    · rename_i due
      have headed := answeredHeaded course roomy few due
      have left : (answer service clock (called service c)).intake.unread =
          (c.request.advance service c.intake.unread).buffer := by rw [answerIntake, unread]
      have fewer := (Request.advanceSuffix service c.request c.intake.unread).length_le
      rcases answeredCourse course due with ⟨further, _⟩ | ended
      · cases headed with
        | serves next => exact ih further next (left ▸ Nat.le_trans fewer few)
        | ended stopped => exact absurd further.serves stopped
      · rw [driveStopped service clock rounds ended.stopped]
        exact headed
    · rename_i waits
      have still := roomy.division.called course.ready (Bool.eq_false_iff.mpr waits)
      exact .serves ⟨still, roomy.short, roomy.shortRest⟩

structure Housed (service : Service) (clock : Clock) (stream : Bytes) (c : Connection) : Prop where
  followed : Followed service clock stream c
  stored : c.intake.stored.length ≤ room service
  headed : Headed service clock stream c

theorem freshHoused (service : Service) (clock : Clock) : Housed service clock [] {} := by
  have division : Division service clock [] {} [] [] := ⟨rfl, by simp, rfl, Request.freshPending [], fun _ => .refl _⟩
  exact ⟨.inl ⟨freshCourse service clock, .inl rfl, .inl rfl⟩, Nat.zero_le _,
    .serves ⟨division, by simp, shortHeld (Nat.zero_le _)⟩⟩

theorem Housed.course (housed : Housed service clock stream c) (serves : c.stage = .serving) :
    Course service clock stream c := by
  rcases housed.followed with ⟨course, _⟩ | ended
  · exact course
  · exact absurd serves ended.stopped

theorem Housed.roomy (housed : Housed service clock stream c) (serves : c.stage = .serving) :
    ∃ parts rest, Roomy service clock stream c parts rest := by
  cases housed.headed with
  | serves roomy => exact ⟨_, _, roomy⟩
  | ended stopped => exact absurd serves stopped

theorem Housed.asked (housed : Housed service clock stream c) (lives : c.stage ≠ .closed) :
    c.asked.unread = [] ∨ c.asked.size < service.limits.headLimit := by
  rcases housed.followed with ⟨course, idle⟩ | ended
  · have same : c.asked = c.intake := by simp [Connection.asked, course.serves]
    rw [same]
    exact idle.small
  · have draining : c.stage = .draining := by
      cases stage : c.stage with
      | serving => exact absurd stage ended.stopped
      | draining => rfl
      | closed => exact absurd stage lives
    exact .inl (by simp only [Connection.asked, draining, if_true, OffsetBuffer.unreadClear])

theorem askedSize (small : c.asked.unread = [] ∨ c.asked.size < service.limits.headLimit) :
    c.asked.size ≤ service.limits.headLimit := by
  rcases small with nothing | few
  · rw [← OffsetBuffer.unreadLength, nothing]
    exact Nat.zero_le _
  · exact Nat.le_of_lt few

theorem enteredStored {read : Bytes} (small : c.asked.unread = [] ∨ c.asked.size < service.limits.headLimit)
    (short : read.length ≤ service.limits.readLimit) : (entered service c read).intake.stored.length ≤ room service := by
  refine Nat.le_trans (OffsetBuffer.fillStored _ _ _) (Nat.add_le_add (askedSize small) ?_)
  exact Nat.le_trans (List.length_take_le' _ _) short

theorem servingHoused {read : Bytes} (housed : Housed service clock stream c) (serves : c.stage = .serving)
    (some : read ≠ []) (short : read.length ≤ service.limits.readLimit) (fits : c.intake.size + read.length < Word.size) :
    (∀ p ∈ passed service clock c read, p.intake.stored.length ≤ room service) ∧
      Housed service clock (stream ++ read) (c.deliver service clock read) := by
  have whole : read.take service.limits.readLimit = read := List.take_of_length_le short
  have same : c.asked = c.intake := by simp [Connection.asked, serves]
  have stored : (entered service c read).intake.stored.length ≤ room service :=
    enteredStored (housed.asked (by simp [serves])) short
  have unread := c.intake.unreadFill read service.limits.readLimit
  rw [whole] at unread
  simp only [entered, same] at stored
  have course := housed.course serves
  obtain ⟨parts, rest, roomy⟩ := housed.roomy serves
  have filled := filledCourse read course short fits
  have few : (c.intake.unread ++ read).length ≤ room service := by
    rw [← unread, OffsetBuffer.unreadLength]
    exact Nat.le_trans (OffsetBuffer.sizeStored _) stored
  have within : ∀ p ∈ passed service clock c read, p.intake.stored.length ≤ room service := by
    have all : passed service clock c read = driven service clock (c.intake.fill read service.limits.readLimit).1.size
        { c with intake := (c.intake.fill read service.limits.readLimit).1 } := by
      cases read with
      | nil => contradiction
      | cons b more => simp only [passed, serves, whole, entered, same]
    rw [all]
    exact fun p inside => Nat.le_trans (drivenStored filled _ p inside) stored
  refine ⟨within, ?_, within _ (List.mem_of_getLast? (passedLast service clock c read)), ?_⟩
  · rw [deliverServing serves some short]
    exact driveFollowed filled (Nat.le_refl _)
  · rw [deliverServing serves some short]
    have shortRest := roomy.shortRest.filled roomy.division.pending few
    refine driveHeaded filled ⟨roomy.division.filled unread, roomy.short, shortRest⟩ ?_ _
    rw [unread]
    exact few

theorem stoppedHoused {read : Bytes} (housed : Housed service clock stream c) (ended : Ended c) (some : read ≠ [])
    (short : read.length ≤ service.limits.readLimit) :
    (∀ p ∈ passed service clock c read, p.intake.stored.length ≤ room service) ∧
      Housed service clock (stream ++ read) (c.deliver service clock read) := by
  have within : ∀ p ∈ passed service clock c read, p.intake.stored.length ≤ room service := by
    have whole : read.take service.limits.readLimit = read := List.take_of_length_le short
    intro p inside
    cases stage : c.stage with
    | serving => exact absurd stage ended.stopped
    | closed =>
      simp only [passed, stage] at inside
      obtain rfl := List.mem_singleton.mp inside
      exact housed.stored
    | draining =>
      cases read with
      | nil => contradiction
      | cons b more =>
        have still : (entered service c (b :: more)).stage ≠ .serving := by simp [entered, stage]
        simp only [passed, stage, whole, drivenStopped service clock _ still] at inside
        obtain rfl := List.mem_singleton.mp inside
        exact enteredStored (housed.asked (by simp [stage])) short
  obtain ⟨same, stopped⟩ := deliverStopped service clock read ended.stopped
  obtain ⟨parts, rest, shares⟩ := housed.headed.shares
  have stream : stream ++ read = parts.flatten ++ (rest ++ read) := by rw [shares.stream, List.append_assoc]
  refine ⟨within, .inr (ended.delivered service clock read),
    within _ (List.mem_of_getLast? (passedLast service clock c read)), .ended stopped ⟨stream, ?_, shares.due, shares.short⟩⟩
  rw [same]
  exact shares.written

def Countable (service : Service) (clock : Clock) (c : Connection) (reads : List Bytes) : Prop :=
  room service < Word.size ∨ Fits service clock c reads

theorem deliverHoused {read : Bytes} (housed : Housed service clock stream c) (some : read ≠ [])
    (short : read.length ≤ service.limits.readLimit)
    (fits : room service < Word.size ∨ c.intake.size + read.length < Word.size) :
    (∀ p ∈ passed service clock c read, p.intake.stored.length ≤ room service) ∧
      Housed service clock (stream ++ read) (c.deliver service clock read) := by
  rcases housed.followed with ⟨course, idle⟩ | ended
  · refine servingHoused housed course.serves some short ?_
    rcases fits with word | now
    · have same : c.asked = c.intake := by simp [Connection.asked, course.serves]
      have small := askedSize (housed.asked (by simp [course.serves]))
      rw [same] at small
      exact Nat.lt_of_le_of_lt (Nat.add_le_add small short) word
    · exact now
  · exact stoppedHoused housed ended some short

theorem deliveriesHoused {reads : List Bytes} (housed : Housed service clock stream c)
    (each : ∀ read ∈ reads, read ≠ [] ∧ read.length ≤ service.limits.readLimit)
    (countable : Countable service clock c reads) :
    (∀ p ∈ points service clock c reads, p.intake.stored.length ≤ room service) ∧
      Housed service clock (stream ++ reads.flatten) (reads.foldl (deliver service clock) c) := by
  induction reads generalizing c stream with
  | nil => exact ⟨by simpa [points] using housed.stored, by simpa using housed⟩
  | cons read rest ih =>
    obtain ⟨some, short⟩ := each read (by simp)
    obtain ⟨now, next⟩ := deliverHoused housed some short (countable.imp_right And.left)
    obtain ⟨later, final⟩ := ih next (fun read inside => each read (List.mem_cons_of_mem _ inside))
      (countable.imp_right And.right)
    refine ⟨fun p inside => ?_, by simpa using final⟩
    rcases List.mem_cons.mp inside with rfl | others
    · exact housed.stored
    · rcases List.mem_append.mp others with here | after
      · exact now p here
      · exact later p after

theorem fitsFront {early late : List Bytes} (fits : Fits service clock c (early ++ late)) :
    Fits service clock c early := by
  induction early generalizing c with
  | nil => trivial
  | cons read rest ih => exact ⟨fits.1, ih fits.2⟩

theorem earlyHoused {chunks early : List Bytes} (countable : Countable service clock {} (reads service chunks))
    (front : early <+: reads service chunks) :
    Housed service clock early.flatten (early.foldl (deliver service clock) {}) := by
  obtain ⟨late, whole⟩ := front
  have each : ∀ read ∈ early, read ≠ [] ∧ read.length ≤ service.limits.readLimit := fun read inside =>
    readsEach (whole ▸ List.mem_append_left late inside)
  exact (deliveriesHoused (freshHoused service clock) each (countable.imp_right fun fits => fitsFront (whole.symm ▸ fits))).2

/- Where a head and one read can be set aside together, no read ends the program. -/
theorem roomMade (overflow : Overflow) (service : Service) (clock : Clock) {chunks early : List Bytes}
    (least : room service ≤ Word.mostBytes) (front : early <+: reads service chunks)
    (lives : (early.foldl (deliver service clock) {}).stage ≠ .closed) (read : Bytes) :
    let c := early.foldl (deliver service clock) {}
    c.asked.fill? overflow read service.limits.readLimit = some (c.asked.fill read service.limits.readLimit) := by
  intro c
  have housed : Housed service clock early.flatten c :=
    earlyHoused (.inl (Nat.lt_of_le_of_lt least Word.mostBelow)) front
  have small := askedSize (housed.asked lives)
  exact OffsetBuffer.fillFits overflow read (Nat.le_trans (Nat.add_le_add_right small _) least)

theorem acceptedHead {part : Bytes} (due : (Request.advance service {} part).due = true)
    (accepted : (Request.advance service {} part).request.status = .ok ∨
      (Request.advance service {} part).request.status = .notFound) :
    ∃ head, IsHead head ∧ head <+: part := by
  have ended : Request.CallEnd service part (Request.advance service {} part) := (Request.freshPending part).callEnd
  generalize Request.advance service {} part = p at ended due accepted
  cases ended with
  | waits => contradiction
  | through parted => exact ⟨_, parted.isHead, parted.front⟩
  | refused known =>
    obtain ⟨notOk, notMissing, _⟩ := Intake.faultStatus known
    exact absurd accepted (not_or.mpr ⟨notOk, notMissing⟩)
  | crowded => exact absurd accepted (by simp [Request.reject, Fault.status])

/-- Whatever a client sends: each read goes into a buffer that is empty or holds less than
the head limit, nothing on the way of a run holds more than that limit and one read, and
each answer belongs to a part of the stream whose head is no longer either. -/
theorem roomBounded (service : Service) (clock : Clock) (chunks : List Bytes)
    (countable : Countable service clock {} (reads service chunks)) :
    let most := service.limits.headLimit + service.limits.readLimit
    (∀ early, early <+: reads service chunks → let c := early.foldl (deliver service clock) {}
      c.stage ≠ .closed → (c.asked.unread = [] ∨ c.asked.size < service.limits.headLimit) ∧
        (c.asked.makeRoom service.limits.readLimit).length ≤ most) ∧
    (points service clock {} (reads service chunks)).getLast? = some (run service clock chunks) ∧
    (∀ p ∈ points service clock {} (reads service chunks), p.intake.stored.length ≤ most) ∧
    ∃ (parts : List Bytes) (rest : Bytes), (reads service chunks).flatten = parts.flatten ++ rest ∧
      (run service clock chunks).exchanges.reverse.map Exchange.written =
        parts.mapIdx (fun n part => (message service clock n (Request.advance service {} part).request).text) ∧
      ∀ part ∈ parts, (Request.advance service {} part).due = true ∧
        (∀ head, IsHead head → head <+: part → head.length ≤ most) ∧
        ((Request.advance service {} part).request.status = .ok ∨
          (Request.advance service {} part).request.status = .notFound →
          ∃ head, IsHead head ∧ head <+: part) := by
  intro most
  have fresh := freshHoused service clock
  obtain ⟨within, final⟩ := deliveriesHoused fresh (fun _ => readsEach) countable
  refine ⟨?_, pointsLast service clock {} _, within, ?_⟩
  · intro early front c lives
    have small := (earlyHoused countable front).asked lives
    refine ⟨small, ?_⟩
    simp only [OffsetBuffer.makeRoom, List.length_append, List.length_replicate, OffsetBuffer.unreadLength]
    exact Nat.add_le_add_right (askedSize small) _
  · obtain ⟨parts, rest, shares⟩ := final.headed.shares
    exact ⟨parts, rest, shares.stream, shares.written,
      fun part inside => ⟨shares.due part inside, shares.short part inside, acceptedHead (shares.due part inside)⟩⟩

theorem roomBoundedPipelined :
    let service : Service := ⟨⟨[(ascii "a", .file [0x2a])]⟩, { headLimit := 32, readLimit := 8 }, ChainTable.byteHash⟩
    let clock : Clock := ⟨Calendar.httpDate 784111777, fun _ => 0⟩
    let chunks := [ascii "GET /a HTTP/1.1\r\n\r\nGET /b HTTP/1.1\r\n\r\nGET /a"]
    Countable service clock {} (reads service chunks) ∧ (run service clock chunks).exchanges.length = 2 ∧
      ((run service clock chunks).asked.unread = [] ∨ (run service clock chunks).asked.size < 32) ∧
      (∀ p ∈ points service clock {} (reads service chunks), p.intake.stored.length ≤ 40) := by
  intro service clock chunks
  have countable : Countable service clock {} (reads service chunks) := .inl (by decide +kernel)
  have reached : (run service clock chunks).exchanges.length = 2 ∧ (run service clock chunks).stage ≠ .closed := by
    decide +kernel
  obtain ⟨asked, _, within, _⟩ := roomBounded service clock chunks countable
  exact ⟨countable, reached.1, (asked _ (List.prefix_refl _) reached.2).1, within⟩

end Connection
end StaticHttp
