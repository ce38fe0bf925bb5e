import StaticHttp.Proofs.Accounting
import StaticHttp.Proofs.Segmentation
import StaticHttp.Proofs.Sending
/-! Requests that follow each other on a connection are answered as each of them
alone would be. A complete request that keeps the connection is answered and used
up, and what comes after it finds the connection as a new one. -/
namespace StaticHttp.Connection
open Request (Crowded)
open Outlook (answerTo answers)

structure CompleteKept (service : Service) (now : Bytes) (age : Duration) (bytes : Bytes) : Prop where
  word : bytes.length < Word.size
  due : (Intake.deliver service {} bytes).due = true
  emptied : (Intake.deliver service {} bytes).buffer.unread = []
  kept : (Reply.compose service now age (Intake.deliver service {} bytes).request {}).request.keepsAlive = true

instance (service : Service) (now : Bytes) (age : Duration) (bytes : Bytes) :
    Decidable (CompleteKept service now age bytes) :=
  decidable_of_iff
    (bytes.length < Word.size ∧ (Intake.deliver service {} bytes).due = true ∧
      (Intake.deliver service {} bytes).buffer.unread = [] ∧
      (Reply.compose service now age (Intake.deliver service {} bytes).request {}).request.keepsAlive = true)
    ⟨fun ⟨word, due, emptied, kept⟩ => ⟨word, due, emptied, kept⟩, fun h => ⟨h.word, h.due, h.emptied, h.kept⟩⟩

def response (service : Service) (now : Bytes) (age : Duration) (bytes : Bytes) : Bytes :=
  (answerTo service now age (Intake.deliver service {} bytes).request).written

variable {service : Service} {now : Bytes} {age : Duration} {bytes : Bytes}

theorem aloneGoesOn (kept : CompleteKept service now age bytes) :
    (answerTo service now age (Request.advance service {} bytes).request).goesOn = true := by
  obtain ⟨request, _, _⟩ := Intake.deliverFresh service kept.word
  have alive := kept.kept
  rw [request] at alive
  have stocked : Request.Stocked service (Request.advance service {} bytes).request :=
    Request.advanceStocked (Request.freshStocked service) bytes
  generalize (Request.advance service {} bytes).request = r at alive stocked ⊢
  have sent : (Reply.send service.site (Reply.compose service now age r {}).reply
      (Reply.compose service now age r {}).output []).result = .ok () := Reply.sendEnds stocked
  simp only [answerTo, sent, alive]
  rfl

theorem answersFront (clock : Clock) (n : Nat) (kept : CompleteKept service clock.now age bytes)
    (side : clock.age n > service.limits.connectionTime ↔ age > service.limits.connectionTime) (rest : Bytes) :
    answers service clock n (bytes ++ rest) =
      response service clock.now age bytes :: answers service clock (n + 1) rest := by
  obtain ⟨request, due, buffer⟩ := Intake.deliverFresh service kept.word
  have ended : (Request.advance service {} bytes).due = true := due ▸ kept.due
  have used : (Request.advance service {} bytes).buffer = [] := buffer ▸ kept.emptied
  have goesOn := aloneGoesOn kept
  have alive := Outlook.composedKeeps goesOn
  have shorter := Outlook.consumes (Request.freshPending bytes) ended alive
  have some : bytes ≠ [] := by
    rintro rfl
    simp at shorter
  -- A head found too long closes the connection.
  have short : ¬ Crowded service {} bytes := by
    intro long
    obtain ⟨q, rejected⟩ := Request.crowdedRejected long
    rw [rejected, Outlook.rejectCloses q rfl] at alive
    contradiction
  have front := Outlook.outlookDue clock n (Request.freshPending bytes) some ended short rest
  rw [Outlook.answersOutlook, front, Outlook.answerSide clock.now side, if_pos goesOn, used, List.nil_append,
    Outlook.answersOutlook, response, request]

theorem answersFronts {requests : List Bytes} (clock : Clock) (n : Nat)
    (kept : ∀ bytes ∈ requests, CompleteKept service clock.now age bytes)
    (side : ∀ n, clock.age n > service.limits.connectionTime ↔ age > service.limits.connectionTime) (rest : Bytes) :
    answers service clock n (requests.flatten ++ rest) =
      requests.map (response service clock.now age) ++ answers service clock (n + requests.length) rest := by
  induction requests generalizing n with
  | nil => rfl
  | cons bytes others ih =>
    have front := answersFront clock n (kept bytes (by simp)) (side n) (others.flatten ++ rest)
    have further := ih (n + 1) fun bytes inside => kept bytes (by simp [inside])
    rw [List.flatten_cons, List.append_assoc, front, further, List.map_cons, List.cons_append, List.length_cons]
    rw [Nat.add_assoc, Nat.add_comm 1]

end StaticHttp.Connection
