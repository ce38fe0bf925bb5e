import StaticHttp.Connection
import StaticHttp.Proofs.Advance
/-! What a byte stream is answered with, whatever reads it arrives in: request
after request from the bytes that are left, until an answer closes, sending
stops, or the rest is not a whole request. -/
namespace StaticHttp

structure Answer where
  written : Bytes
  goesOn : Bool
  deriving DecidableEq, Repr

namespace Outlook
open Request (Pending Parted CallEnd)
open Draft (lineFaults headerFaults)

def answerTo (service : Service) (now : Bytes) (age : Duration) (r : Request) : Answer :=
  let composed := Reply.compose service now age r {}
  let attempt := Reply.send service.site composed.reply composed.output []
  ⟨attempt.calls.flatMap Call.taken, attempt.result.isOk && composed.request.keepsAlive⟩

def answers (service : Service) (clock : Clock) (n : Nat) (held : Bytes) : List Bytes :=
  if held = [] then []
  else
    let progress := Request.advance service {} held
    if progress.due then
      let answer := answerTo service clock.now (clock.age n) progress.request
      if further : answer.goesOn = true ∧ progress.buffer.length < held.length then
        answer.written :: answers service clock (n + 1) progress.buffer
      else [answer.written]
    else []
  termination_by held.length
  decreasing_by exact further.2

def onward (service : Service) (clock : Clock) (n : Nat) (p : Progress Bytes) : List Bytes :=
  let answer := answerTo service clock.now (clock.age n) p.request
  answer.written :: if answer.goesOn then answers service clock (n + 1) p.buffer else []

def outlook (service : Service) (clock : Clock) (n : Nat) (r : Request) (held : Bytes) : List Bytes :=
  if held = [] then []
  else if (r.advance service held).due then onward service clock n (r.advance service held)
  else []

variable {service : Service} {r : Request} {sent held : Bytes}

theorem handOverParked (r : Request) : Reply.handOver r.parked = (Reply.handOver r).parked := by
  unfold Reply.handOver
  split
  · rename_i failed
    rw [if_pos (by exact failed)]
  · rename_i failed
    rw [if_neg (by exact failed)]
    rfl

theorem ageRuleParked (limits : Limits) (age : Duration) (r : Request) :
    Reply.ageRule limits age r.parked = (Reply.ageRule limits age r).parked := by
  unfold Reply.ageRule
  split
  · rfl
  · rfl

theorem composeParked (service : Service) (now : Bytes) (age : Duration) (r : Request) :
    Reply.compose service now age r.parked {} =
      { Reply.compose service now age r {} with
        request := (Reply.compose service now age r {}).request.parked } := by
  have chosen : Reply.selected service r.parked = Reply.selected service r := rfl
  have head (r : Request) (size : Nat) : Head.forRequest service.limits now r.parked size =
      Head.forRequest service.limits now r size := rfl
  have method (r : Request) : r.parked.draft.method = r.draft.method := rfl
  simp only [Reply.compose, handOverParked, ageRuleParked, chosen, head, method]

theorem answerParked (service : Service) (now : Bytes) (age : Duration) (r : Request) :
    answerTo service now age r.parked = answerTo service now age r := by
  simp only [answerTo, composeParked]
  rfl

theorem answerSide {age other : Duration} (now : Bytes)
    (side : age > service.limits.connectionTime ↔ other > service.limits.connectionTime) (r : Request) :
    answerTo service now age r = answerTo service now other r := by
  simp only [answerTo, Reply.compose, Reply.ageRule, side]

theorem composedKeeps {now : Bytes} {age : Duration} (keeps : (answerTo service now age r).goesOn = true) :
    r.keepsAlive = true := by
  simp only [answerTo, Reply.compose, Reply.handOver, Reply.ageRule, Bool.and_eq_true] at keeps
  obtain ⟨_, alive⟩ := keeps
  revert alive
  repeat' split
  all_goals simp [Request.keepsAlive, Request.withoutReuse]

theorem rejectCloses (r : Request) {fault : Fault} (closes : fault.closes = true) :
    (r.reject fault).keepsAlive = false := by
  simp only [Request.reject, closes, if_true]
  rfl

theorem faultCloses {fault : Fault} (known : fault ∈ lineFaults ++ headerFaults) : fault.closes = true := by
  revert fault
  decide

theorem keptThrough {p : Progress Bytes} (call : CallEnd service sent p) (due : p.due = true)
    (keeps : p.request.keepsAlive = true) : ∃ head, Parted p.request.draft sent p.buffer head := by
  cases call with
  | waits => contradiction
  | through parted => exact ⟨_, parted⟩
  | refused known =>
    rw [rejectCloses _ (faultCloses known)] at keeps
    contradiction
  | crowded =>
    rw [rejectCloses _ rfl] at keeps
    contradiction

theorem partedShorter {draft : Draft} {head : Bytes} (parted : Parted draft sent held head) :
    held.length < sent.length := by
  obtain ⟨body, whole, _⟩ := parted.parts
  have some : head ≠ [] := by
    rintro rfl
    exact absurd parted.isHead.closed (by decide)
  have positive := List.length_pos_iff.mpr some
  simp only [whole, List.length_append]
  omega

theorem consumes (pending : Pending r sent held) (due : (r.advance service held).due = true)
    (keeps : (r.advance service held).request.keepsAlive = true) :
    (r.advance service held).buffer.length < held.length := by
  have through : ∃ head, Parted (r.advance service held).request.draft sent (r.advance service held).buffer head :=
    keptThrough pending.callEnd due keeps
  cases pending.waits with
  | line line whole =>
    subst whole
    obtain ⟨head, parted⟩ := through
    exact partedShorter parted
  | headers headers whole =>
    subst whole
    obtain ⟨head, parted⟩ := through
    exact partedShorter parted
  | body body lacking _ =>
    have turn : Request.BodyTurn r held (Request.takeBody r held) := Request.bodyTurn body
    have call : r.advance service held = Request.settle service (Request.takeBody r held) := by
      rw [Request.advance, Request.readBody body]
    rw [call] at due ⊢
    generalize Request.takeBody r held = t at turn due ⊢
    cases turn with
    | more =>
      have inBody : (r.counted held.length).inHead = false := by
        have phase : (r.counted held.length).phase = .body := body.phase
        simp [Request.inHead, phase]
      simp [Request.settle, inBody] at due
    | found there whole =>
      simp only [Request.settle, List.length_drop]
      omega

theorem answersOutlook (service : Service) (clock : Clock) (n : Nat) (held : Bytes) :
    answers service clock n held = outlook service clock n {} held := by
  rw [answers, outlook]
  split
  · rfl
  · simp only [onward]
    by_cases due : (Request.advance service {} held).due = true
    · rw [if_pos due, if_pos due]
      by_cases goesOn : (answerTo service clock.now (clock.age n) (Request.advance service {} held).request).goesOn = true
      · have shorter := consumes (Request.freshPending held) due (composedKeeps goesOn)
        rw [dif_pos ⟨goesOn, shorter⟩, if_pos goesOn]
      · rw [dif_neg (fun further => goesOn further.1), if_neg goesOn]
    · rw [if_neg due, if_neg due]

theorem outlookWaits (clock : Clock) (n : Nat) (waits : (r.advance service held).due = false) :
    outlook service clock n r held = [] := by
  simp [outlook, waits]

theorem onwardLike {p q : Progress Bytes} (like : p.Like q) (clock : Clock) (n : Nat) :
    onward service clock n p = onward service clock n q := by
  have same : answerTo service clock.now (clock.age n) p.request =
      answerTo service clock.now (clock.age n) q.request := by
    rw [← answerParked, like.request, answerParked]
  simp only [onward, same, like.buffer]

theorem outlookMore (clock : Clock) (n : Nat) (pending : Pending r sent held) (some : held ≠ [])
    (waits : (r.advance service held).due = false) (rest : Bytes) :
    outlook service clock n r (held ++ rest) =
      outlook service clock n (r.advance service held).request ((r.advance service held).buffer ++ rest) := by
  have like := Request.advanceMore pending waits rest
  have together : outlook service clock n r (held ++ rest) =
      if ((r.advance service held).request.advance service ((r.advance service held).buffer ++ rest)).due then
        onward service clock n
          ((r.advance service held).request.advance service ((r.advance service held).buffer ++ rest))
      else [] := by
    rw [outlook, if_neg (by simp [some]), like.due, onwardLike like]
  rw [together]
  by_cases nothing : (r.advance service held).buffer ++ rest = []
  · obtain ⟨_, rfl⟩ := List.append_eq_nil_iff.mp nothing
    rw [List.append_nil] at like
    rw [← like.due, waits, outlook, if_pos nothing]
    rfl
  · rw [outlook, if_neg nothing]

theorem outlookDue (clock : Clock) (n : Nat) (pending : Pending r sent held) (some : held ≠ [])
    (due : (r.advance service held).due = true) (calm : ¬ Request.Crowded service r held) (rest : Bytes) :
    outlook service clock n r (held ++ rest) =
      (answerTo service clock.now (clock.age n) (r.advance service held).request).written ::
        if (answerTo service clock.now (clock.age n) (r.advance service held).request).goesOn then
          outlook service clock (n + 1) {} ((r.advance service held).buffer ++ rest)
        else [] := by
  have same := Request.advanceDue pending due calm rest
  have ended : (r.advance service (held ++ rest)).due = true := by rw [same]; exact due
  rw [outlook, if_neg (by simp [some]), if_pos ended, onward, same]
  simp only [answersOutlook]

theorem answersSide {clock other : Clock} {n m : Nat} (now : clock.now = other.now)
    (side : ∀ k, clock.age (n + k) > service.limits.connectionTime ↔
      other.age (m + k) > service.limits.connectionTime) (held : Bytes) :
    answers service clock n held = answers service other m held := by
  -- Each answer leaves fewer bytes, and the two counts go up together.
  induction size : held.length using Nat.strongRecOn generalizing held n m with
  | ind size ih =>
    have same (r : Request) : answerTo service clock.now (clock.age n) r = answerTo service other.now (other.age m) r := by
      rw [now]
      exact answerSide other.now (side 0) r
    have next (k : Nat) : clock.age (n + 1 + k) > service.limits.connectionTime ↔
        other.age (m + 1 + k) > service.limits.connectionTime := by
      simpa only [Nat.add_assoc] using side (1 + k)
    rw [answers, answers]
    simp only [same]
    split
    · rfl
    · split
      · split
        · rename_i further
          rw [ih _ (size ▸ further.2) next _ rfl]
        · rfl
      · rfl

end Outlook
end StaticHttp
