import StaticHttp.Proofs.Accounting
import StaticHttp.Proofs.Orderly
/-! One request after the other over one buffer, in any order of deliveries, calls and
fresh starts. A fresh start may come at any time and leaves the buffer as it is, so a
request may begin in the middle of what was sent. A request that is due stays as it is
until then. -/
namespace StaticHttp.Intake
open Request (Pending Parted CallEnd Orderly Served Denied)
open HeadEnd (IsHead)
open Draft (LengthTold)

inductive Deed where
  | push (bytes : Bytes)
  | call
  | renew
  deriving DecidableEq, Repr

def perform (service : Service) (i : Intake) : Deed → Intake
  | .push bytes => i.push bytes
  | .call => i.call service
  | .renew => { buffer := i.buffer }

def performAll (service : Service) (deeds : List Deed) : Intake := deeds.foldl (perform service) {}

def Contained (service : Service) : Intake → List Deed → Prop
  | _, [] => True
  | i, deed :: rest =>
      (i.perform service deed).buffer.stored.length < Word.size ∧ Contained service (i.perform service deed) rest

instance containedDecidable (service : Service) : (i : Intake) → (deeds : List Deed) →
    Decidable (Contained service i deeds)
  | _, [] => .isTrue trivial
  | i, deed :: rest =>
      have := containedDecidable service (i.perform service deed) rest
      inferInstanceAs (Decidable (_ ∧ _))

variable {service : Service} {i : Intake}

structure Waiting (service : Service) (i : Intake) : Prop where
  due : i.due = false
  pending : Pending i.request (i.released ++ i.buffer.unread) i.buffer.unread
  orderly : Orderly service.limits i.request

structure Concluded (i : Intake) : Prop where
  due : i.due = true
  done : i.request.phase = .done
  settled : Served i.request ∨ Denied i.request
  consumed : i.request.status = .notFound → ∃ head body, IsHead head ∧ LengthTold i.request.draft head ∧
    body.length = i.request.draft.contentLength ∧ i.released = head ++ body

structure Lives (service : Service) (i : Intake) : Prop where
  sound : i.buffer.Sound
  state : Waiting service i ∨ Concluded i

theorem freshLives {b : OffsetBuffer} (service : Service) (sound : b.Sound) : Lives service { buffer := b } :=
  ⟨sound, .inl ⟨rfl, Request.freshPending b.unread, Request.freshOrderly service.limits⟩⟩

theorem callDone (due : i.due = true) (done : i.request.phase = .done) : i.call service = i := by
  obtain ⟨request, buffer, ended, released⟩ := i
  obtain rfl : ended = true := due
  simp [call, Request.advanceDone done]

theorem pushesDone {pushes : List Bytes} (done : i.request.phase = .done) (due : i.due = true) :
    (pushes.foldl push i).call service = pushes.foldl push i ∧ (pushes.foldl push i).request = i.request ∧
      (pushes.foldl push i).due = true ∧ (pushes.foldl push i).released = i.released := by
  induction pushes generalizing i with
  | nil => exact ⟨callDone due done, rfl, due, rfl⟩
  | cons bytes rest ih => exact ih (i := i.push bytes) done due

theorem Waiting.called (waiting : Waiting service i) (sound : i.buffer.Sound) :
    Lives service (i.call service) ∧
      (i.call service).released ++ (i.call service).buffer.unread = i.released ++ i.buffer.unread := by
  have pending := waiting.pending
  obtain ⟨request, due, unread, out⟩ := callPlain service sound pending
  have suffix : (i.call service).buffer.unread <:+ i.buffer.unread := by
    rw [unread]
    exact Request.advanceSuffix service i.request i.buffer.unread
  have total := callTotal suffix
  obtain ⟨still, settled⟩ := Request.advanceSettled pending waiting.orderly
  refine ⟨⟨out.sound, ?_⟩, total⟩
  have ended : CallEnd service (i.released ++ i.buffer.unread) (i.request.advance service i.buffer.unread) :=
    pending.callEnd
  generalize i.request.advance service i.buffer.unread = p at request due unread ended still settled
  cases ended with
  | waits pending _ =>
    refine .inl ⟨due, ?_, ?_⟩
    · rw [total, request, unread]
      exact pending
    · rw [request]
      exact still rfl
  | @through r held head _ parted full done _ =>
    simp only at request unread
    refine .inr ⟨due, by rw [request]; exact done, by rw [request]; exact settled rfl, fun _ => ?_⟩
    obtain ⟨body, whole, count⟩ := parted.parts
    rw [unread] at total
    rw [request]
    exact ⟨head, body, parted.isHead, parted.told, count.trans full, List.append_cancel_right (total.trans whole)⟩
  | refused known =>
    simp only at request
    refine .inr ⟨due, by rw [request]; rfl, by rw [request]; exact settled rfl, fun missing => ?_⟩
    rw [request] at missing
    exact absurd missing (faultStatus known).2.1
  | crowded _ _ =>
    simp only at request
    refine .inr ⟨due, by rw [request]; rfl, by rw [request]; exact settled rfl, fun missing => ?_⟩
    rw [request] at missing
    contradiction

theorem performLives {deed : Deed} (lives : Lives service i)
    (fits : (i.perform service deed).buffer.stored.length < Word.size) : Lives service (i.perform service deed) := by
  cases deed with
  | push bytes =>
    obtain ⟨sound, unread⟩ := pushSound lives.sound fits
    refine ⟨sound, lives.state.imp (fun waiting => ⟨waiting.due, ?_, waiting.orderly⟩)
      (fun ended => ⟨ended.due, ended.done, ended.settled, ended.consumed⟩)⟩
    simp only [perform, unread, ← List.append_assoc]
    exact waiting.pending.append bytes
  | call =>
    rcases lives.state with waiting | ended
    · exact (waiting.called lives.sound).1
    · simp only [perform, callDone ended.due ended.done]
      exact lives
  | renew => exact freshLives service lives.sound

theorem performAllLives {deeds : List Deed} (lives : Lives service i) (contained : Contained service i deeds) :
    Lives service (deeds.foldl (perform service) i) := by
  induction deeds generalizing i with
  | nil => exact lives
  | cons deed rest ih => exact ih (performLives lives contained.1) contained.2

theorem livesThrough {deeds : List Deed} (contained : Contained service {} deeds) :
    Lives service (performAll service deeds) :=
  performAllLives (freshLives service ⟨Nat.le_refl _, by decide⟩) contained

/-- A call after which an answer is due has settled what the answer is. One that tells of a
missing file comes when head and body have been released and nothing else. From then
on nothing that arrives changes the request, and calls release nothing more. -/
theorem outcomesSettled (service : Service) (deeds : List Deed) (contained : Contained service {} deeds) :
    let before := performAll service deeds
    let i := before.call service
    i.due = true →
      (Served i.request ∨ Denied i.request) ∧
      i.released ++ i.buffer.unread = before.released ++ before.buffer.unread ∧
      (i.request.status = .notFound → ∃ head body, IsHead head ∧ LengthTold i.request.draft head ∧
        body.length = i.request.draft.contentLength ∧ i.released = head ++ body) ∧
      (∀ pushes : List Bytes, let j := pushes.foldl push i
        j.call service = j ∧ j.request = i.request ∧ j.due = true ∧ j.released = i.released) := by
  intro before i due
  have lives : Lives service before := livesThrough contained
  have after : Lives service i ∧ i.released ++ i.buffer.unread = before.released ++ before.buffer.unread := by
    rcases lives.state with waiting | ended
    · exact waiting.called lives.sound
    · have same : i = before := callDone ended.due ended.done
      rw [same]
      exact ⟨lives, rfl⟩
  obtain ⟨still, total⟩ := after
  rcases still.state with waiting | ended
  · rw [waiting.due] at due
    contradiction
  · exact ⟨ended.settled, total, ended.consumed, fun pushes => pushesDone ended.done due⟩

theorem missingSettled :
    let service : Service := ⟨⟨[]⟩, {}, ChainTable.byteHash⟩
    let deeds : List Deed := [.push (ascii "POST /x HTTP/1.1\r\nContent-Length: 2\r\n\r\na"), .call, .push (ascii "bGET")]
    Contained service {} deeds ∧ ((performAll service deeds).call service).due = true ∧
      Denied ((performAll service deeds).call service).request ∧ ∃ head body, IsHead head ∧ body.length = 2 ∧
        ((performAll service deeds).call service).released = head ++ body := by
  intro service deeds
  have contained : Contained service {} deeds := by decide +kernel
  have reached : ((performAll service deeds).call service).due = true ∧
      ((performAll service deeds).call service).request.status = .notFound ∧
      ((performAll service deeds).call service).request.draft.contentLength = 2 := by decide +kernel
  obtain ⟨due, missing, length⟩ := reached
  obtain ⟨settled, _, consumed, _⟩ := outcomesSettled service deeds contained due
  obtain ⟨head, body, isHead, _, count, released⟩ := consumed missing
  rw [length] at count
  have failed : ¬ Served ((performAll service deeds).call service).request := fun served =>
    absurd (missing.symm.trans served.status) (by decide)
  exact ⟨contained, due, settled.resolve_left failed, head, body, isHead, count, released⟩

end StaticHttp.Intake
