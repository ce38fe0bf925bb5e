import StaticHttp.Calendar
import StaticHttp.Proofs.Offset
import StaticHttp.Reply.Send
/-! Sending a reply in as many attempts as it takes. Wherever an attempt breaks off,
the calls that succeeded have moved the front of what the reply consists of, and the
next attempt goes on behind it. -/
namespace StaticHttp

namespace Call

def written : Call → Option Bytes
  | write taken => taken
  | send _ _ _ => none

def moved : Call → Bytes
  | write _ => []
  | send taken _ _ => taken.getD []

end Call

namespace Transfer

inductive Place where
  | front
  | within (sent : Nat)

variable {block body : Bytes} {path : Option Path} {p q s : Place}

def Place.gone (block body : Bytes) : Place → Bytes
  | front => []
  | within n => block ++ body.take n

def Place.sent : Place → Nat
  | front => 0
  | within n => n

def Place.blocks (block : Bytes) : Place → List Bytes
  | front => []
  | within _ => [block]

/- The calls that lead from one place to another. Calls that fail, or move nothing,
lead nowhere. -/
inductive Calls (block body : Bytes) : Place → List Call → Place → Prop where
  | none (p : Place) : Calls block body p [] p
  | writeFails {calls : List Call} {q : Place} (later : Calls block body .front calls q) :
      Calls block body .front (.write none :: calls) q
  | write {calls : List Call} {q : Place} (later : Calls block body (.within 0) calls q) :
      Calls block body .front (.write (some block) :: calls) q
  | sendFails {n count : Nat} {calls : List Call} {q : Place} (asks : 1 ≤ count)
      (fits : count ≤ min Reply.sendLimit (body.length - n)) (later : Calls block body (.within n) calls q) :
      Calls block body (.within n) (.send none n count :: calls) q
  | send {n m count : Nat} {calls : List Call} {q : Place} (asks : 1 ≤ count)
      (fits : count ≤ min Reply.sendLimit (body.length - n)) (takes : m ≤ count)
      (later : Calls block body (.within (n + m)) calls q) :
      Calls block body (.within n) (.send (some ((body.drop n).take m)) n count :: calls) q

theorem Calls.append {calls more : List Call} (first : Calls block body p calls q) (second : Calls block body q more s) :
    Calls block body p (calls ++ more) s := by
  induction first with
  | none => exact second
  | writeFails _ ih => exact .writeFails (ih second)
  | write _ ih => exact .write (ih second)
  | sendFails asks fits _ ih => exact .sendFails asks fits (ih second)
  | send asks fits takes _ ih => exact .send asks fits takes (ih second)

theorem Calls.gone {calls : List Call} (course : Calls block body p calls q) :
    p.gone block body ++ calls.flatMap Call.taken = q.gone block body := by
  induction course with
  | none => simp
  | writeFails _ ih => simpa [Call.taken] using ih
  | write _ ih => simpa [Call.taken, Place.gone] using ih
  | sendFails _ _ _ ih => simpa [Call.taken] using ih
  | send _ _ _ _ ih => simpa [Call.taken, Place.gone, List.take_add] using ih

theorem takenMoved {n m count : Nat} (fits : count ≤ min Reply.sendLimit (body.length - n)) (takes : m ≤ count) :
    ((body.drop n).take m).length = m := by
  simp only [List.length_take, List.length_drop]
  omega

theorem Calls.sent {calls : List Call} (course : Calls block body p calls q) :
    p.sent + (calls.flatMap Call.moved).length = q.sent := by
  induction course with
  | none => simp
  | writeFails _ ih => simpa [Call.moved] using ih
  | write _ ih => simpa [Call.moved, Place.sent] using ih
  | sendFails _ _ _ ih => simpa [Call.moved] using ih
  | send _ fits takes _ ih =>
    simp only [List.flatMap_cons, Call.moved, Option.getD_some, List.length_append, takenMoved fits takes,
      Place.sent] at ih ⊢
    omega

theorem Calls.written {calls : List Call} (course : Calls block body p calls q) :
    p.blocks block ++ calls.filterMap Call.written = q.blocks block := by
  induction course with
  | none => simp
  | writeFails _ ih => simpa [Call.written, List.filterMap_cons] using ih
  | write _ ih => simpa [Call.written, Place.blocks, List.filterMap_cons] using ih
  | sendFails _ _ _ ih => simpa [Call.written, List.filterMap_cons] using ih
  | send _ _ _ _ ih => simpa [Call.written, Place.blocks, List.filterMap_cons] using ih

theorem Calls.part {before after : List Call} (course : Calls block body p (before ++ after) q) :
    ∃ s, Calls block body p before s ∧ Calls block body s after q := by
  induction before generalizing p with
  | nil => exact ⟨p, .none p, course⟩
  | cons call rest ih =>
    cases course with
    | writeFails later =>
      obtain ⟨s, first, second⟩ := ih later
      exact ⟨s, .writeFails first, second⟩
    | write later =>
      obtain ⟨s, first, second⟩ := ih later
      exact ⟨s, .write first, second⟩
    | sendFails asks fits later =>
      obtain ⟨s, first, second⟩ := ih later
      exact ⟨s, .sendFails asks fits first, second⟩
    | send asks fits takes later =>
      obtain ⟨s, first, second⟩ := ih later
      exact ⟨s, .send asks fits takes first, second⟩

theorem Calls.asked {before after : List Call} {taken : Option Bytes} {offset count : Nat}
    (course : Calls block body p (before ++ .send taken offset count :: after) q) :
    offset = p.sent + (before.flatMap Call.moved).length ∧ 1 ≤ count ∧
      count ≤ min Reply.sendLimit (body.length - offset) ∧ (taken.getD []).length ≤ count := by
  obtain ⟨s, first, second⟩ := course.part
  rw [first.sent]
  cases second with
  | sendFails asks fits _ => exact ⟨rfl, asks, fits, Nat.zero_le _⟩
  | send asks fits takes _ => exact ⟨rfl, asks, fits, by simpa [takenMoved fits takes] using takes⟩

inductive Stands (block body : Bytes) (path : Option Path) : Place → Reply → OffsetBuffer → Prop where
  | front {output : OffsetBuffer} (sound : output.Sound) (held : output.unread = block) :
      Stands block body path .front { body := path, length := body.length } output
  | within {n : Nat} {output : OffsetBuffer} (short : n < body.length) (flushed : output.unread = []) :
      Stands block body path (.within n) { phase := .body, body := path, length := body.length, sent := n } output
  | through {output : OffsetBuffer} (flushed : output.unread = []) :
      Stands block body path (.within body.length) { phase := .done, length := body.length, sent := body.length } output

def Keeps (site : Site) (path : Option Path) (body : Bytes) : Prop :=
  ∀ names, path = some names → ∃ content, site.content? names = some content ∧ body <+: content

theorem offered {content : Bytes} (starts : body <+: content) {n count : Nat} (fits : count ≤ body.length - n) :
    (content.drop n).take count = (body.drop n).take count := by
  obtain ⟨more, rfl⟩ := starts
  by_cases inside : n ≤ body.length
  · rw [List.drop_append_of_le_length inside, List.take_append_of_le_length (by simpa using fits)]
  · have none : count = 0 := by omega
    simp [none]

theorem graspPrefix {reaction : Option Reaction} {piece taken : Bytes}
    (grasped : Reply.grasp reaction piece = .ok taken) : ∃ m, taken = piece.take m ∧ m ≤ piece.length := by
  unfold Reply.grasp at grasped
  split at grasped
  · contradiction
  · rename_i limit
    cases grasped
    exact ⟨min limit piece.length, by simp [List.take_eq_take_iff], Nat.min_le_right _ _⟩
  · cases grasped
    exact ⟨piece.length, by simp, Nat.le_refl _⟩
  · cases grasped
    exact ⟨piece.length, by simp, Nat.le_refl _⟩

theorem sendFileCalls {content : Bytes} (reply : Reply) (starts : body <+: content)
    (length : reply.length = body.length) (inside : reply.sent ≤ body.length) (script : List Reaction) (block : Bytes) :
    ∃ n calls result, Reply.sendFile content reply script = ({ reply with sent := n }, calls, result) ∧
      Calls block body (.within reply.sent) calls (.within n) ∧ n ≤ body.length ∧
      (result = .ok () ↔ n = body.length) := by
  -- On the bytes that are not sent yet: a call that moves some leaves fewer of them.
  induction left : reply.length - reply.sent using Nat.strongRecOn generalizing reply script with
  | ind unsent ih =>
    unfold Reply.sendFile
    split
    · rename_i short
      have asks : 1 ≤ min (reply.length - reply.sent) Reply.sendLimit := by simp only [Reply.sendLimit]; omega
      have fits : min (reply.length - reply.sent) Reply.sendLimit ≤ min Reply.sendLimit (body.length - reply.sent) := by
        omega
      have piece := offered starts (n := reply.sent) (Nat.le_trans fits (Nat.min_le_right _ _))
      generalize min (reply.length - reply.sent) Reply.sendLimit = count at asks fits piece ⊢
      simp only [piece]
      split
      · rename_i fault refused
        refine ⟨reply.sent, _, _, rfl, .sendFails asks fits (.none _), inside, ?_⟩
        simp
        omega
      · rename_i grasped
        have stays : Calls block body (.within reply.sent) [.send (some []) reply.sent count] (.within reply.sent) := by
          have rest : Calls block body (.within (reply.sent + 0)) [] (.within reply.sent) := .none _
          exact .send asks fits (Nat.zero_le _) rest
        refine ⟨reply.sent, _, _, rfl, stays, inside, ?_⟩
        simp
        omega
      · rename_i b rest grasped
        obtain ⟨m, taken, most⟩ := graspPrefix grasped
        rw [List.take_take, Nat.min_eq_left (Nat.le_trans most (List.length_take_le _ _))] at taken
        have takes : m ≤ count := Nat.le_trans most (List.length_take_le _ _)
        have size : (b :: rest).length = m := by rw [taken, takenMoved fits takes]
        have some : 0 < m := by rw [← size]; exact Nat.succ_pos _
        obtain ⟨n, calls, result, same, course, bound, ends⟩ :=
          ih (reply.length - (reply.sent + m)) (by omega) { reply with sent := reply.sent + m } length
            (by simp only; omega) script.tail rfl
        rw [size, same]
        refine ⟨n, _, result, rfl, ?_, bound, ends⟩
        rw [taken]
        exact .send asks fits takes course
    · refine ⟨reply.sent, [], _, rfl, .none _, inside, ?_⟩
      simp
      omega

theorem sendBodyCalls {site : Site} {n : Nat} (output : OffsetBuffer) (inside : n ≤ body.length)
    (flushed : output.unread = []) (keeps : Keeps site path body) (bodiless : path = none → body = [])
    (script : List Reaction) (block : Bytes) : ∃ m reply calls result,
      Reply.sendBody site { phase := .body, body := path, length := body.length, sent := n } script =
        (reply, calls, result) ∧
      Calls block body (.within n) calls (.within m) ∧ Stands block body path (.within m) reply output ∧
      (result = .ok () ↔ m = body.length) := by
  cases path with
  | none =>
    obtain rfl := bodiless rfl
    obtain rfl : n = 0 := Nat.le_zero.mp inside
    exact ⟨0, _, _, _, rfl, .none _, .through flushed, by simp⟩
  | some names =>
    obtain ⟨content, there, starts⟩ := keeps names rfl
    obtain ⟨m, calls, result, same, course, bound, ends⟩ :=
      sendFileCalls { phase := .body, body := some names, length := body.length, sent := n }
        starts rfl inside script block
    simp only [Reply.sendBody, there, Option.getD_some, same]
    cases result with
    | ok =>
      obtain rfl := ends.mp rfl
      exact ⟨_, _, _, _, rfl, course, .through flushed, by simp⟩
    | error fault =>
      have short : m ≠ body.length := fun whole => by simp [whole] at ends
      exact ⟨m, _, _, _, rfl, course, .within (by omega) flushed, ends⟩

theorem attemptCalls {site : Site} {reply : Reply} {output : OffsetBuffer} (stands : Stands block body path p reply output)
    (keeps : Keeps site path body) (bodiless : path = none → body = []) (script : List Reaction) :
    ∃ q, Calls block body p (Reply.send site reply output script).calls q ∧
      Stands block body path q (Reply.send site reply output script).reply
        (Reply.send site reply output script).output ∧
      ((Reply.send site reply output script).result = .ok () ↔ q = .within body.length) := by
  cases stands with
  | front sound held =>
    simp only [Reply.send]
    split
    · exact ⟨.front, .writeFails (.none _), .front sound held, by simp⟩
    · have flushed : (output.consume output.unread.length).unread = [] := by
        rw [sound.unreadConsume (Nat.le_refl _), List.drop_length]
      obtain ⟨m, reply, calls, result, same, course, stands, ends⟩ := 
        sendBodyCalls _ (Nat.zero_le _) flushed keeps bodiless script.tail block
      rw [same, held]
      rw [held] at stands
      exact ⟨.within m, .write course, stands, by simpa using ends⟩
  | within short flushed =>
    obtain ⟨m, reply, calls, result, same, course, stands, ends⟩ := 
      sendBodyCalls _ (Nat.le_of_lt short) flushed keeps bodiless script block
    simp only [Reply.send, same]
    exact ⟨.within m, course, stands, by simpa using ends⟩
  | through flushed =>
    simp only [Reply.send, Reply.sendBody]
    exact ⟨.within body.length, .none _, .through flushed, by simp⟩

end Transfer

structure Occasion where
  site : Site
  script : List Reaction

structure Transfer where
  reply : Reply
  output : OffsetBuffer
  calls : List Call := []
  result : Option (Except IoFault Unit) := none

namespace Transfer

def attempt (t : Transfer) (o : Occasion) : Transfer :=
  let sending := Reply.send o.site t.reply t.output o.script
  { reply := sending.reply
    output := sending.output
    calls := t.calls ++ sending.calls
    result := some sending.result }

def after (c : Composed) (occasions : List Occasion) : Transfer :=
  occasions.foldl attempt { reply := c.reply, output := c.output }

def delivered (t : Transfer) : Bytes := t.calls.flatMap Call.taken

variable {block body : Bytes} {path : Option Path}

structure Reached (block body : Bytes) (path : Option Path) (t : Transfer) (p : Place) : Prop where
  calls : Calls block body .front t.calls p
  stands : Stands block body path p t.reply t.output
  ended : ∀ result, t.result = some result → (result = .ok () ↔ p = .within body.length)

theorem attemptReached {t : Transfer} {o : Occasion} {p : Place} (reached : Reached block body path t p)
    (keeps : Keeps o.site path body) (bodiless : path = none → body = []) :
    ∃ q, Reached block body path (t.attempt o) q := by
  obtain ⟨q, course, stands, ends⟩ := attemptCalls reached.stands keeps bodiless o.script
  refine ⟨q, reached.calls.append course, stands, ?_⟩
  intro result same
  cases same
  exact ends

theorem attemptsReached {t : Transfer} {occasions : List Occasion} {p : Place} (reached : Reached block body path t p)
    (keeps : ∀ o ∈ occasions, Keeps o.site path body) (bodiless : path = none → body = []) :
    ∃ q, Reached block body path (occasions.foldl attempt t) q := by
  induction occasions generalizing t p with
  | nil => exact ⟨p, reached⟩
  | cons o rest ih =>
    obtain ⟨q, next⟩ := attemptReached reached (keeps o (by simp)) bodiless
    exact ih next fun o inside => keeps o (by simp [inside])

theorem throughSilent {t : Transfer} (through : Stands block body path (.within body.length) t.reply t.output)
    (later : List Occasion) : (later.foldl attempt t).calls = t.calls := by
  induction later generalizing t with
  | nil => rfl
  | cons o rest ih =>
    have stays : (t.attempt o).reply = t.reply ∧ (t.attempt o).output = t.output ∧ (t.attempt o).calls = t.calls := by
      obtain ⟨reply, output, calls, result⟩ := t
      cases through with
      | within short => omega
      | through flushed => simp [attempt, Reply.send, Reply.sendBody]
    obtain ⟨reply, output, calls⟩ := stays
    rw [List.foldl_cons, ih (by rw [reply, output]; exact through), calls]

theorem bodyOfFresh (method : Option Method) (opened : Option Opened) :
    Reply.bodyOf method opened =
      { body := (Reply.bodyOf method opened).body, length := (Reply.bodyOf method opened).length } ∧
    ((Reply.bodyOf method opened).body = none → (Reply.bodyOf method opened).length = 0) := by
  unfold Reply.bodyOf
  repeat' split
  all_goals simp

theorem renderSome (h : Head) : h.render ≠ [] := by
  simp [Head.render, Head.lineEnd]

theorem wholeGone {p : Place} (some : block ≠ []) (inside : p.sent ≤ body.length) :
    p.gone block body = block ++ body ↔ p = .within body.length := by
  cases p with
  | front => simp [Place.gone, some, eq_comm]
  | within n =>
    simp only [Place.gone, List.append_cancel_left_eq, Place.within.injEq]
    constructor
    · intro all
      have length := congrArg List.length all
      simp only [List.length_take, Place.sent] at length inside
      omega
    · rintro rfl
      exact List.take_length

theorem Stands.counts {p : Place} {reply : Reply} {output : OffsetBuffer} (stands : Stands block body path p reply output) :
    reply.length = body.length ∧ reply.sent = p.sent ∧ p.sent ≤ body.length ∧
      output.unread = if p.blocks block = [] then block else [] := by
  cases stands with
  | front sound held => exact ⟨rfl, rfl, Nat.zero_le _, by simp [Place.blocks, held]⟩
  | within short flushed => exact ⟨rfl, rfl, Nat.le_of_lt short, by simp [Place.blocks, flushed]⟩
  | through flushed => exact ⟨rfl, rfl, Nat.le_refl _, by simp [Place.blocks, flushed]⟩

theorem composedFront {service : Service} {now : Bytes} {age : Duration} {r : Request} {output : OffsetBuffer}
    {body : Bytes} (inside : output.start ≤ output.stored.length)
    (word : (Reply.compose service now age r output).output.stored.length < Word.size)
    (whole : body.length = (Reply.compose service now age r output).reply.length) :
    Stands (Reply.compose service now age r output).output.unread body
        (Reply.compose service now age r output).reply.body .front
        (Reply.compose service now age r output).reply (Reply.compose service now age r output).output ∧
      (Reply.compose service now age r output).output.unread ≠ [] ∧
      ((Reply.compose service now age r output).reply.body = none → body = []) := by
  have appended : (Reply.compose service now age r output).output.unread =
      output.unread ++ (Reply.compose service now age r output).head.render := OffsetBuffer.unreadAppend inside _
  have grown : output.stored.length ≤ (Reply.compose service now age r output).output.stored.length := by
    simp [Reply.compose, OffsetBuffer.append]
  have sound : (Reply.compose service now age r output).output.Sound := ⟨Nat.le_trans inside grown, word⟩
  obtain ⟨fresh, bodiless⟩ := bodyOfFresh (Reply.ageRule service.limits age (Reply.handOver r)).draft.method
    (Reply.selected service r)
  refine ⟨?_, ?_, fun none => ?_⟩
  · have reply : (Reply.compose service now age r output).reply =
        { body := (Reply.compose service now age r output).reply.body, length := body.length } := by
      rw [whole]
      exact fresh
    rw [reply]
    exact .front sound rfl
  · rw [appended]
    exact List.append_ne_nil_of_right_ne_nil _ (renderSome _)
  · exact List.eq_nil_of_length_eq_zero (whole.trans (bodiless none))

/-- However attempts break off, what they deliver is the block and the body from the
front. The block leaves the buffer with the one write that succeeds, and the count of
sent bytes moves with the bytes that were sent and with nothing else. -/
theorem deliveredOnce (service : Service) (now : Bytes) (age : Duration) (r : Request) (output : OffsetBuffer)
    (body : Bytes) (occasions : List Occasion) (inside : output.start ≤ output.stored.length)
    (word : (Reply.compose service now age r output).output.stored.length < Word.size)
    (whole : body.length = (Reply.compose service now age r output).reply.length)
    (keeps : ∀ o ∈ occasions, Keeps o.site (Reply.compose service now age r output).reply.body body) :
    let block := (Reply.compose service now age r output).output.unread
    let t := after (Reply.compose service now age r output) occasions
    t.delivered <+: block ++ body ∧
    (t.calls.filterMap Call.written = [] ∨ t.calls.filterMap Call.written = [block]) ∧
    (∀ before taken offset count rest, t.calls = before ++ .send taken offset count :: rest →
      offset = (before.flatMap Call.moved).length ∧ 1 ≤ count ∧
        count ≤ min 1048576 (body.length - offset) ∧ (taken.getD []).length ≤ count) ∧
    (t.reply.length = body.length ∧ t.reply.sent ≤ t.reply.length ∧
      t.reply.sent = (t.calls.flatMap Call.moved).length ∧
      t.output.unread = if t.calls.filterMap Call.written = [] then block else []) ∧
    (∀ result, t.result = some result → (result = .ok () ↔ t.delivered = block ++ body)) ∧
    (t.delivered = block ++ body →
      t.output.unread = [] ∧ t.reply.unsent = 0 ∧ t.reply.delivered = true ∧
        ∀ later : List Occasion, (later.foldl attempt t).calls = t.calls) := by
  intro block t
  obtain ⟨front, some, bodiless⟩ := composedFront inside word whole
  have start : Reached block body (Reply.compose service now age r output).reply.body
      { reply := (Reply.compose service now age r output).reply
        output := (Reply.compose service now age r output).output } .front := ⟨.none _, front, by simp⟩
  obtain ⟨p, reached⟩ : ∃ p, Reached block body (Reply.compose service now age r output).reply.body t p :=
    attemptsReached start keeps bodiless
  obtain ⟨course, stands, ended⟩ := reached
  obtain ⟨length, sent, bound, flushed⟩ := stands.counts
  have gone : t.delivered = p.gone block body := course.gone
  have moved : (t.calls.flatMap Call.moved).length = p.sent := (Nat.zero_add _).symm.trans course.sent
  have blocks : t.calls.filterMap Call.written = p.blocks block := course.written
  have all : t.delivered = block ++ body ↔ p = .within body.length := by
    rw [gone]
    exact wholeGone some bound
  refine ⟨?_, ?_, ?_, ⟨length, ?_, ?_, ?_⟩, ?_, ?_⟩
  · rw [gone]
    cases p with
    | front => exact List.nil_prefix
    | within n => exact List.prefix_append_right_inj block |>.mpr (List.take_prefix n body)
  · rw [blocks]
    cases p with
    | front => exact .inl rfl
    | within n => exact .inr rfl
  · intro before taken offset count rest parts
    rw [parts] at course
    simpa [Place.sent, Reply.sendLimit] using course.asked
  · omega
  · rw [sent, moved]
  · rw [blocks]
    exact flushed
  · intro result last
    rw [all]
    exact ended result last
  · intro everything
    obtain rfl := all.mp everything
    have done : t.reply.phase = .done ∧ t.output.unread = [] := by
      generalize t.reply = reply, t.output = out at stands
      cases stands with
      | within short => omega
      | through flushed => exact ⟨rfl, flushed⟩
    refine ⟨done.2, ?_, ?_, fun later => throughSilent stands later⟩
    · simp only [Reply.unsent, length, sent, Place.sent, Nat.sub_self]
    · simp [Reply.delivered, done.1]

theorem deliveredOnceBrokenOff :
    let service : Service := ⟨⟨[(ascii "a", .file [1, 2, 3])]⟩, {}, ChainTable.byteHash⟩
    let r : Request := { resource := some ⟨[ascii "a"], 3, false⟩ }
    let composed := Reply.compose service (Calendar.httpDate 784111777) 0 r {}
    let fails : Reaction := .fails ⟨.brokenPipe, "broken pipe"⟩
    let occasions := [[fails], [.takesAll, .takes 2, fails], [.takes 0], []].map (Occasion.mk service.site)
    (after composed occasions).result = some (.ok ()) ∧
      (after composed occasions).delivered = composed.output.unread ++ [1, 2, 3] ∧
      (after composed occasions).output.unread = [] := by
  intro service r composed fails occasions
  have word : composed.output.stored.length < Word.size ∧ [1, 2, 3].length = composed.reply.length := by
    decide +kernel
  have file : service.site.content? [ascii "a"] = some [1, 2, 3] := by decide +kernel
  have succeeds : (after composed occasions).result.map Except.isOk = some true := by decide +kernel
  have ended : (after composed occasions).result = some (.ok ()) := by
    obtain ⟨result, same, ok⟩ := Option.map_eq_some_iff.mp succeeds
    cases result with
    | error fault => contradiction
    | ok => exact same
  have keeps : ∀ o ∈ occasions, Keeps o.site composed.reply.body [1, 2, 3] := by
    intro o inside names same
    obtain ⟨script, _, rfl⟩ := List.mem_map.mp inside
    cases same
    exact ⟨[1, 2, 3], file, List.prefix_refl _⟩
  obtain ⟨_, _, _, _, exactly, through⟩ :=
    deliveredOnce service (Calendar.httpDate 784111777) 0 r {} [1, 2, 3] occasions (Nat.le_refl _) word.1 word.2 keeps
  have everything := (exactly _ ended).mp rfl
  exact ⟨ended, everything, (through everything).1⟩

end Transfer
end StaticHttp
