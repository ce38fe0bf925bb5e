import StaticHttp.Proofs.Ledger
/-! One call for a request: reading as far as the bytes go, and the end of a
request that is refused or whose head is too long. A call that asks for more can
be continued and a call that ends the request is final, except that a head found
incomplete at the limit might have gone on. -/
namespace StaticHttp

namespace Progress

structure Like (p q : Progress Bytes) : Prop where
  due : p.due = q.due
  buffer : p.buffer = q.buffer
  request : p.request.parked = q.request.parked
  exact : p.request.failed = false → p.request = q.request

theorem Like.failed {p q : Progress Bytes} (like : p.Like q) : p.request.failed = q.request.failed := by
  have same : p.request.parked.failed = q.request.parked.failed := by rw [like.request]
  exact same

theorem Like.trans {p q s : Progress Bytes} (first : p.Like q) (second : q.Like s) : p.Like s := by
  refine ⟨first.due.trans second.due, first.buffer.trans second.buffer,
    first.request.trans second.request, fun accepted => ?_⟩
  have middle : q.request.failed = false := first.failed ▸ accepted
  exact (first.exact accepted).trans (second.exact middle)

end Progress

namespace Request
open HeadEnd (IsHead Open Closed)
open Draft (lineFaults headerFaults)
variable {service : Service} {r : Request} {sent held : Bytes}

def Crowded {β : Type} [ByteQueue β] (service : Service) (r : Request) (buffer : β) : Prop :=
  (read service r buffer).outcome = .more ∧ (read service r buffer).request.inHead = true ∧
    service.limits.headLimit ≤ (ByteQueue.unread (read service r buffer).buffer).length

instance {β : Type} [ByteQueue β] (service : Service) (r : Request) (buffer : β) :
    Decidable (Crowded service r buffer) := by unfold Crowded; infer_instance

theorem parkedReject (r : Request) (fault : Fault) : (r.reject fault).parked = r.parked.reject fault := by
  unfold reject
  split
  · rfl
  · rfl

theorem settleLike {t u : Turn Bytes} (like : t.Like u) : (settle service t).Like (settle service u) := by
  cases left : t.outcome with
  | found =>
    have request := like.exact fun fault => by simp [left]
    simp only [settle, left, like.outcome ▸ left, request, like.buffer]
    exact ⟨rfl, rfl, rfl, fun _ => rfl⟩
  | more =>
    have request := like.exact fun fault => by simp [left]
    simp only [settle, left, like.outcome ▸ left, request, like.buffer]
    split
    · exact ⟨rfl, rfl, rfl, fun _ => rfl⟩
    · exact ⟨rfl, rfl, rfl, fun _ => rfl⟩
  | failed fault =>
    simp only [settle, left, like.outcome ▸ left]
    refine ⟨rfl, like.buffer, ?_, fun accepted => ?_⟩
    · rw [parkedReject, parkedReject, like.request]
    · simp [reject] at accepted

theorem settleWaits {t : Turn Bytes} (waits : (settle service t).due = false) :
    t.outcome = .more ∧ settle service t = ⟨t.request, t.buffer, false, t.events⟩ := by
  cases ended : t.outcome with
  | found => simp [settle, ended] at waits
  | failed fault => simp [settle, ended] at waits
  | more =>
    simp only [settle, ended] at waits ⊢
    split at waits
    · contradiction
    · rename_i roomy
      exact ⟨trivial, if_neg roomy⟩

theorem settleAhead {t : Turn Bytes} (ended : t.outcome ≠ .more) (rest : Bytes) :
    settle service (t.ahead rest) = { settle service t with buffer := (settle service t).buffer ++ rest } := by
  cases outcome : t.outcome with
  | more => exact absurd outcome ended
  | found => simp only [settle, Turn.ahead, outcome]
  | failed fault => simp only [settle, Turn.ahead, outcome]

theorem andThenSuffix {t : Turn Bytes} {next : Request → Bytes → Turn Bytes} (first : t.buffer <:+ held)
    (second : ∀ r buffer, (next r buffer).buffer <:+ buffer) : (t.andThen next).buffer <:+ held := by
  unfold Turn.andThen
  split
  · exact (second _ _).trans first
  · exact first

theorem takeLineSuffix (service : Service) (r : Request) (held : Bytes) :
    (takeLine service r held).buffer <:+ held := by
  simp only [takeLine, locate]
  repeat' split
  all_goals exact List.suffix_refl held

theorem takeHeadersSuffix (service : Service) (r : Request) (held : Bytes) :
    (takeHeaders service r held).buffer <:+ held := by
  simp only [takeHeaders]
  split
  · exact List.drop_suffix _ _
  · exact List.suffix_refl _

theorem takeBodySuffix (r : Request) (held : Bytes) : (takeBody r held).buffer <:+ held := by
  simp only [takeBody]
  split
  all_goals exact List.drop_suffix _ _

theorem readSuffix (service : Service) (r : Request) (held : Bytes) : (read service r held).buffer <:+ held := by
  have onward : ∀ r buffer, ((takeHeaders service r buffer).andThen takeBody).buffer <:+ buffer :=
    fun r buffer => andThenSuffix (takeHeadersSuffix service r buffer) takeBodySuffix
  cases phase : r.phase with
  | requestLine =>
    simp only [read, phase]
    exact andThenSuffix (takeLineSuffix service r held) onward
  | headers =>
    simp only [read, phase]
    exact onward r held
  | body =>
    simp only [read, phase]
    exact takeBodySuffix r held
  | done =>
    simp only [read, phase]
    exact List.suffix_refl held

theorem advanceSuffix (service : Service) (r : Request) (held : Bytes) :
    (advance service r held).buffer <:+ held := by
  have suffix : (read service r held).buffer <:+ held := readSuffix service r held
  simp only [advance, settle]
  repeat' split
  all_goals exact suffix

theorem advanceMore (pending : Pending r sent held) (waits : (advance service r held).due = false) (rest : Bytes) :
    (advance service r (held ++ rest)).Like
      (advance service (advance service r held).request ((advance service r held).buffer ++ rest)) := by
  obtain ⟨more, same⟩ := settleWaits waits
  have resumes : Resumes (read service) r held := pending.resumes
  have call : advance service r held =
      ⟨(read service r held).request, (read service r held).buffer, false, (read service r held).events⟩ := same
  rw [call]
  exact settleLike (resumes.more more rest)

theorem advanceDue (pending : Pending r sent held) (due : (advance service r held).due = true)
    (calm : ¬ Crowded service r held) (rest : Bytes) :
    advance service r (held ++ rest) =
      { advance service r held with buffer := (advance service r held).buffer ++ rest } := by
  have resumes : Resumes (read service) r held := pending.resumes
  have ended : (read service r held).outcome ≠ .more := by
    intro more
    have roomy : ¬ (((read service r held).request.inHead &&
        decide (service.limits.headLimit ≤ (read service r held).buffer.length)) = true) := by
      simpa [Crowded, more] using calm
    simp [advance, settle, more, roomy] at due
  rw [advance, resumes.ended ended rest, settleAhead ended]
  rfl

theorem crowdedRejected (long : Crowded service r held) :
    ∃ q : Request, (advance service r held).request = q.reject .headTooLarge := by
  obtain ⟨more, inHead, limit⟩ := long
  have full : ((read service r held).request.inHead &&
      decide (service.limits.headLimit ≤ (read service r held).buffer.length)) = true := by
    simpa [inHead] using limit
  simp only [advance, settle, more, ByteQueue.unreadBytes]
  rw [if_pos full]
  exact ⟨_, rfl⟩

theorem crowdedDue (long : Crowded service r held) : (advance service r held).due = true := by
  obtain ⟨more, inHead, limit⟩ := long
  have full : ((read service r held).request.inHead &&
      decide (service.limits.headLimit ≤ (read service r held).buffer.length)) = true := by
    simpa [inHead] using limit
  simp only [advance, settle, more, ByteQueue.unreadBytes]
  rw [if_pos full]

inductive CallEnd (service : Service) (sent : Bytes) : Progress Bytes → Prop where
  | waits {r : Request} {held : Bytes} {events : List Event} (pending : Pending r sent held)
      (noBlank : r.inHead = true → Open sent) : CallEnd service sent ⟨r, held, false, events⟩
  | through {r : Request} {held head : Bytes} {events : List Event} (parted : Parted r.draft sent held head)
      (full : r.draft.bodyRead = r.draft.contentLength) (done : r.phase = .done)
      (status : r.status = .ok ∨ r.status = .notFound) : CallEnd service sent ⟨r, held, true, events⟩
  | refused {r : Request} {fault : Fault} {events : List Event} (known : fault ∈ lineFaults ++ headerFaults) :
      CallEnd service sent ⟨r.reject fault, sent, true, events⟩
  | crowded {r : Request} {events : List Event} (noBlank : Open sent)
      (long : service.limits.headLimit ≤ sent.length) :
      CallEnd service sent ⟨r.reject .headTooLarge, sent, true, events⟩

theorem Pending.headHeld (pending : Pending r sent held) (inHead : r.inHead = true) : sent = held := by
  cases pending.waits with
  | line line whole => exact whole
  | headers headers whole => exact whole
  | body body _ _ => simp [Request.inHead, body.phase] at inHead

theorem Pending.callEnd (pending : Pending r sent held) : CallEnd service sent (advance service r held) := by
  have reading : Reading sent (read service r held) := pending.reading
  rw [advance]
  generalize read service r held = t at reading
  cases reading with
  | found parted full done status => exact .through parted full done status
  | failed known => exact .refused known
  | more pending noBlank =>
    simp only [settle, ByteQueue.unreadBytes]
    split
    · rename_i crowded
      obtain ⟨inHead, long⟩ := Bool.and_eq_true_iff.mp crowded
      obtain rfl := pending.headHeld inHead
      exact .crowded (noBlank inHead) (of_decide_eq_true long)
    · exact .waits pending noBlank

end Request
end StaticHttp
