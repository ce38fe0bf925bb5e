import StaticHttp.Proofs.Advance
import StaticHttp.Proofs.Offset
/-! A request that bytes are delivered to, one delivery and one call at a time.
What it has given up and what it still holds are together what was delivered, and
what it has given up is its head and its body, or nothing. -/
namespace StaticHttp

structure Intake where
  request : Request := {}
  buffer : OffsetBuffer := {}
  due : Bool := false
  released : Bytes := []
  deriving DecidableEq, Repr

namespace Intake
open Request (Pending Parted CallEnd)
open HeadEnd (IsHead Open)
open Draft (lineFaults headerFaults LengthTold)

def push (i : Intake) (bytes : Bytes) : Intake := { i with buffer := i.buffer.append bytes }

def call (service : Service) (i : Intake) : Intake :=
  let progress := i.request.advance service i.buffer
  { request := progress.request
    buffer := progress.buffer
    due := progress.due
    released := i.released ++ i.buffer.unread.take (i.buffer.size - progress.buffer.size) }

def deliver (service : Service) (i : Intake) (bytes : Bytes) : Intake := (i.push bytes).call service

def deliverAll (service : Service) (deliveries : List Bytes) : Intake :=
  deliveries.foldl (deliver service) {}

/- The buffer never holds more bytes than a word can count, as no memory does. -/
def Fits (service : Service) : Intake → List Bytes → Prop
  | _, [] => True
  | i, bytes :: rest =>
      (i.push bytes).buffer.stored.length < Word.size ∧ Fits service (i.deliver service bytes) rest

instance fitsDecidable (service : Service) : (i : Intake) → (deliveries : List Bytes) →
    Decidable (Fits service i deliveries)
  | _, [] => .isTrue trivial
  | i, bytes :: rest =>
      have := fitsDecidable service (i.deliver service bytes) rest
      inferInstanceAs (Decidable (_ ∧ _))

variable {service : Service} {i : Intake} {sent : Bytes}

inductive Account (service : Service) (i : Intake) (sent : Bytes) : Prop where
  | waits (due : i.due = false) (pending : Pending i.request sent i.buffer.unread)
      (noBlank : i.request.inHead = true → Open sent)
  | through (due : i.due = true) (done : i.request.phase = .done) {head : Bytes}
      (parted : Parted i.request.draft sent i.buffer.unread head)
      (full : i.request.draft.bodyRead = i.request.draft.contentLength)
      (status : i.request.status = .ok ∨ i.request.status = .notFound)
  | refused (due : i.due = true) (done : i.request.phase = .done) (whole : i.buffer.unread = sent)
      {fault : Fault} (known : fault ∈ lineFaults ++ headerFaults) (status : i.request.status = fault.status)
  | crowded (due : i.due = true) (done : i.request.phase = .done) (whole : i.buffer.unread = sent)
      {early : Bytes} (inside : early <+: sent) (noBlank : Open early)
      (long : service.limits.headLimit ≤ early.length)
      (status : i.request.status = .requestHeaderFieldsTooLarge)

structure Balance (service : Service) (i : Intake) (sent : Bytes) : Prop where
  sound : i.buffer.Sound
  total : i.released ++ i.buffer.unread = sent
  account : Account service i sent

theorem freshBalance (service : Service) : Balance service {} [] :=
  ⟨⟨Nat.le_refl _, by decide⟩, rfl, .waits rfl (Request.freshPending []) fun _ => HeadEnd.openNil⟩

theorem Balance.pending (balance : Balance service i sent) (waits : i.due = false) :
    Pending i.request sent i.buffer.unread := by
  cases balance.account with
  | waits _ pending => exact pending
  | through now => simp [waits] at now
  | refused now => simp [waits] at now
  | crowded now => simp [waits] at now

theorem pushSound {bytes : Bytes} (sound : i.buffer.Sound)
    (fits : (i.push bytes).buffer.stored.length < Word.size) :
    (i.push bytes).buffer.Sound ∧ (i.push bytes).buffer.unread = i.buffer.unread ++ bytes := by
  have longer : i.buffer.stored.length ≤ (i.push bytes).buffer.stored.length := by
    simp [push, OffsetBuffer.append]
  exact ⟨⟨Nat.le_trans sound.inside longer, fits⟩, OffsetBuffer.unreadAppend sound.inside bytes⟩

theorem Balance.pushed {bytes : Bytes} (balance : Balance service i sent) (waits : i.due = false)
    (fits : (i.push bytes).buffer.stored.length < Word.size) :
    (i.push bytes).buffer.Sound ∧ (i.push bytes).buffer.unread = i.buffer.unread ++ bytes ∧
      Pending i.request (sent ++ bytes) (i.push bytes).buffer.unread := by
  obtain ⟨sound, unread⟩ := pushSound balance.sound fits
  refine ⟨sound, unread, ?_⟩
  rw [unread]
  exact (balance.pending waits).append bytes

theorem callPlain (service : Service) (sound : i.buffer.Sound) (pending : Pending i.request sent i.buffer.unread) :
    (i.call service).request = (i.request.advance service i.buffer.unread).request ∧
      (i.call service).due = (i.request.advance service i.buffer.unread).due ∧
      (i.call service).buffer.unread = (i.request.advance service i.buffer.unread).buffer ∧
      i.buffer.From (i.call service).buffer := by
  obtain ⟨plain, out⟩ := Request.advancePlain service sound pending
  rw [← plain]
  exact ⟨rfl, rfl, rfl, out⟩

theorem deliverFresh {bytes : Bytes} (service : Service) (word : bytes.length < Word.size) :
    (deliver service {} bytes).request = (Request.advance service {} bytes).request ∧
      (deliver service {} bytes).due = (Request.advance service {} bytes).due ∧
      (deliver service {} bytes).buffer.unread = (Request.advance service {} bytes).buffer := by
  have fits : (({} : Intake).push bytes).buffer.stored.length < Word.size := by
    simpa [push, OffsetBuffer.append] using word
  obtain ⟨sound, unread⟩ := pushSound (freshBalance service).sound fits
  have whole : (({} : Intake).push bytes).buffer.unread = bytes := unread
  have pending : Pending (({} : Intake).push bytes).request bytes (({} : Intake).push bytes).buffer.unread := by
    rw [whole]
    exact Request.freshPending bytes
  obtain ⟨request, due, buffer, _⟩ := callPlain service sound pending
  rw [whole] at request due buffer
  exact ⟨request, due, buffer⟩

theorem callTotal (suffix : (i.call service).buffer.unread <:+ i.buffer.unread) :
    (i.call service).released ++ (i.call service).buffer.unread = i.released ++ i.buffer.unread := by
  have front := List.suffix_iff_eq_append.mp suffix
  rw [OffsetBuffer.unreadLength, OffsetBuffer.unreadLength] at front
  have given : (i.call service).released =
      i.released ++ i.buffer.unread.take (i.buffer.size - (i.call service).buffer.size) := rfl
  rw [given, List.append_assoc, front]

theorem callBalance (sound : i.buffer.Sound) (total : i.released ++ i.buffer.unread = sent)
    (pending : Pending i.request sent i.buffer.unread) : Balance service (i.call service) sent := by
  obtain ⟨request, due, buffer, out⟩ := callPlain service sound pending
  have suffix : (i.call service).buffer.unread <:+ i.buffer.unread := by
    rw [buffer]
    exact Request.advanceSuffix service i.request i.buffer.unread
  refine ⟨out.sound, (callTotal suffix).trans total, ?_⟩
  have ended : CallEnd service sent (i.request.advance service i.buffer.unread) := pending.callEnd
  generalize i.request.advance service i.buffer.unread = p at request due buffer ended
  cases ended with
  | waits pending noBlank =>
    simp only at request due buffer
    refine .waits due (by rw [request, buffer]; exact pending) ?_
    rw [request]
    exact noBlank
  | through parted full done status =>
    simp only at request due buffer
    refine .through due (by rw [request]; exact done) (by rw [request, buffer]; exact parted) ?_ ?_
    · rw [request]
      exact full
    · rw [request]
      exact status
  | refused known =>
    simp only at request due buffer
    exact .refused due (by rw [request]; rfl) buffer known (by rw [request]; rfl)
  | crowded noBlank long =>
    simp only at request due buffer
    exact .crowded due (by rw [request]; rfl) buffer (List.prefix_refl _) noBlank long (by rw [request]; rfl)

theorem deliverDone (due : i.due = true) (done : i.request.phase = .done) (bytes : Bytes) :
    i.deliver service bytes = i.push bytes := by
  simp [deliver, call, push, Request.advanceDone done, due]

theorem Account.push {bytes : Bytes} (account : Account service i sent) (due : i.due = true)
    (unread : (i.push bytes).buffer.unread = i.buffer.unread ++ bytes) :
    Account service (i.push bytes) (sent ++ bytes) := by
  cases account with
  | waits waits => simp [due] at waits
  | through due done parted full status =>
    exact .through due done (by rw [unread]; exact parted.append bytes) full status
  | refused due done whole known status => exact .refused due done (by rw [unread, whole]) known status
  | crowded due done whole inside noBlank long status =>
    exact .crowded due done (by rw [unread, whole]) (inside.trans (List.prefix_append _ _)) noBlank long status

theorem Balance.done (balance : Balance service i sent) (due : i.due = true) : i.request.phase = .done := by
  cases balance.account with
  | waits waits => simp [due] at waits
  | through due done => exact done
  | refused due done => exact done
  | crowded due done => exact done

theorem deliverBalance {bytes : Bytes} (balance : Balance service i sent)
    (fits : (i.push bytes).buffer.stored.length < Word.size) :
    Balance service (i.deliver service bytes) (sent ++ bytes) := by
  obtain ⟨sound, unread⟩ := pushSound balance.sound fits
  have total : (i.push bytes).released ++ (i.push bytes).buffer.unread = sent ++ bytes := by
    rw [unread, ← balance.total, List.append_assoc]
    rfl
  by_cases due : i.due = true
  · -- A request that is done reads nothing more.
    rw [deliverDone due (balance.done due)]
    exact ⟨sound, total, balance.account.push due unread⟩
  · obtain ⟨_, _, here⟩ := balance.pushed (Bool.eq_false_iff.mpr due) fits
    exact callBalance sound total here

theorem deliverAllBalance {deliveries : List Bytes} (balance : Balance service i sent)
    (fits : Fits service i deliveries) :
    Balance service (deliveries.foldl (deliver service) i) (sent ++ deliveries.flatten) := by
  -- The balance is of all that was sent, so the sent bytes grow with the deliveries.
  induction deliveries generalizing i sent with
  | nil => simpa using balance
  | cons bytes rest ih =>
    have step := ih (deliverBalance balance fits.1) fits.2
    simpa only [List.foldl_cons, List.flatten_cons, List.append_assoc] using step

theorem releasedParted {head : Bytes} (total : i.released ++ i.buffer.unread = sent)
    (parted : Parted i.request.draft sent i.buffer.unread head) :
    head <+: sent ∧ i.released.length = head.length + i.request.draft.bodyRead := by
  obtain ⟨body, whole, count⟩ := parted.parts
  have released : i.released = head ++ body := List.append_cancel_right (total.trans whole)
  refine ⟨parted.front, ?_⟩
  rw [released, List.length_append, count]

theorem releasedNothing (total : i.released ++ i.buffer.unread = sent) (whole : sent = i.buffer.unread) :
    i.released = [] := by
  rw [whole] at total
  exact List.append_left_eq_self.mp total

theorem faultStatus {fault : Fault} (known : fault ∈ lineFaults ++ headerFaults) :
    fault.status ≠ .ok ∧ fault.status ≠ .notFound ∧ fault.status ≠ .requestHeaderFieldsTooLarge := by
  revert fault
  decide

theorem partedClosed {head : Bytes} (total : i.released ++ i.buffer.unread = sent)
    (parted : Parted i.request.draft sent i.buffer.unread head) : ¬ Open sent := by
  obtain ⟨inside, _⟩ := releasedParted total parted
  exact fun noBlank => noBlank head inside parted.isHead.closed

theorem releasedHead {head other : Bytes} (total : i.released ++ i.buffer.unread = sent)
    (parted : Parted i.request.draft sent i.buffer.unread head) (isOther : IsHead other)
    (within : other <+: sent) : i.released.length = other.length + i.request.draft.bodyRead := by
  obtain ⟨inside, count⟩ := releasedParted total parted
  rw [HeadEnd.headUnique isOther parted.isHead within inside]
  exact count

theorem pendingParted (pending : Pending i.request sent i.buffer.unread) :
    i.request.inHead = true ∨ ∃ head, Parted i.request.draft sent i.buffer.unread head := by
  cases pending.waits with
  | line line => exact .inl (by simp [Request.inHead, line.phase])
  | headers headers => exact .inl (by simp [Request.inHead, headers.phase])
  | body _ _ parted => exact .inr ⟨_, parted⟩

theorem deliveriesAccounted (service : Service) (deliveries : List Bytes) (fits : Fits service {} deliveries) :
    let i := deliverAll service deliveries
    let sent := deliveries.flatten
    i.released ++ i.buffer.unread = sent ∧
    (i.request.inHead = true → i.released = []) ∧
    (i.request.status ≠ .ok → i.request.status ≠ .notFound → i.due = true ∧ i.released = []) ∧
    (i.request.status = .ok ∨ i.request.status = .notFound →
      (i.request.inHead = true ↔ Open sent) ∧
      (∀ head, IsHead head → head <+: sent → i.released.length = head.length + i.request.draft.bodyRead) ∧
      (i.due = true → ∃ head, IsHead head ∧ head <+: sent ∧ LengthTold i.request.draft head ∧
        i.released.length = head.length + i.request.draft.contentLength)) := by
  intro i sent
  have balance : Balance service i sent := deliverAllBalance (freshBalance service) fits
  have total := balance.total
  refine ⟨total, ?_⟩
  cases balance.account with
  | waits waits pending noBlank =>
    have clean := pending.status
    refine ⟨fun inHead => releasedNothing total (pending.headHeld inHead), fun other => absurd clean other,
      fun _ => ⟨⟨noBlank, fun unended => ?_⟩, fun head isHead inside => ?_, fun due => ?_⟩⟩
    · rcases pendingParted pending with inHead | ⟨_, parted⟩
      · exact inHead
      · exact absurd unended (partedClosed total parted)
    · rcases pendingParted pending with inHead | ⟨_, parted⟩
      · exact absurd isHead.closed (noBlank inHead head inside)
      · exact releasedHead total parted isHead inside
    · rw [waits] at due
      contradiction
  | through due done parted full status =>
    have headless : i.request.inHead = false := by simp [Request.inHead, done]
    obtain ⟨inside, count⟩ := releasedParted total parted
    refine ⟨fun inHead => by simp [headless] at inHead, fun some other => absurd status (not_or.mpr ⟨some, other⟩),
      fun _ => ⟨⟨fun inHead => by simp [headless] at inHead, fun unended => ?_⟩, fun head isHead within => ?_,
        fun _ => ⟨_, parted.isHead, inside, parted.told, full ▸ count⟩⟩⟩
    · exact absurd unended (partedClosed total parted)
    · exact releasedHead total parted isHead within
  | refused due done whole known status =>
    have given := releasedNothing total whole.symm
    obtain ⟨notOk, notMissing, _⟩ := faultStatus known
    rw [← status] at notOk notMissing
    exact ⟨fun _ => given, fun _ _ => ⟨due, given⟩, fun either => absurd either (not_or.mpr ⟨notOk, notMissing⟩)⟩
  | crowded due done whole inside noBlank long status =>
    have given := releasedNothing total whole.symm
    refine ⟨fun _ => given, fun _ _ => ⟨due, given⟩, fun either => ?_⟩
    rw [status] at either
    exact absurd either (by decide)

theorem accountedOverPieces :
    let service : Service := ⟨⟨[]⟩, {}, ChainTable.byteHash⟩
    let deliveries := [ascii "GET /a HTTP/1.1\r\nContent-Length: 3\n\nab", ascii "cG"]
    Fits service {} deliveries ∧ (deliverAll service deliveries).request.status = .notFound ∧
      (deliverAll service deliveries).released ++ (deliverAll service deliveries).buffer.unread =
        deliveries.flatten ∧
      ∃ head, IsHead head ∧ head <+: deliveries.flatten ∧
        LengthTold (deliverAll service deliveries).request.draft head ∧
        (deliverAll service deliveries).released.length = head.length + 3 := by
  intro service deliveries
  have fits : Fits service {} deliveries := by decide +kernel
  have reached : (deliverAll service deliveries).request.status = .notFound ∧
      (deliverAll service deliveries).due = true ∧
      (deliverAll service deliveries).request.draft.contentLength = 3 := by decide +kernel
  obtain ⟨status, due, length⟩ := reached
  obtain ⟨total, _, _, accepted⟩ := deliveriesAccounted service deliveries fits
  have through := (accepted (.inr status)).2.2 due
  rw [length] at through
  exact ⟨fits, status, total, through⟩

end Intake
end StaticHttp
