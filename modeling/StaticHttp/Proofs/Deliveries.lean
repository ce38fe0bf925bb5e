import StaticHttp.Proofs.Accounting
/-! A request does not depend on how its bytes are cut into deliveries. Each call
either asks for more, and is then part of one longer call, or ends the request,
and then what follows it stays in the buffer. Only a head that is found too long
while it is incomplete tells the cuttings apart. -/
namespace StaticHttp.Intake
open Request (Pending Crowded)
open HeadEnd (IsHead Open)

def offer (service : Service) (i : Intake) (bytes : Bytes) : Intake :=
  if i.due then i.push bytes else i.deliver service bytes

def offerAll (service : Service) (deliveries : List Bytes) : Intake :=
  deliveries.foldl (offer service) {}

def Calm (service : Service) : Intake → List Bytes → Prop
  | _, [] => True
  | i, bytes :: rest =>
      (i.due = false → ¬ Crowded service i.request (i.push bytes).buffer) ∧
        Calm service (i.offer service bytes) rest

instance calmDecidable (service : Service) : (i : Intake) → (deliveries : List Bytes) →
    Decidable (Calm service i deliveries)
  | _, [] => .isTrue trivial
  | i, bytes :: rest =>
      have := calmDecidable service (i.offer service bytes) rest
      inferInstanceAs (Decidable (_ ∧ _))

variable {service : Service} {i : Intake} {sent : Bytes}

def progress (i : Intake) : Progress Bytes := ⟨i.request, i.buffer.unread, i.due, []⟩

theorem offerDeliver (balance : Balance service i sent) (bytes : Bytes) :
    i.offer service bytes = i.deliver service bytes := by
  unfold offer
  split
  · rename_i due
    exact (deliverDone due (balance.done due) bytes).symm
  · rfl

theorem offerBalance {bytes : Bytes} (balance : Balance service i sent)
    (fits : (i.push bytes).buffer.stored.length < Word.size) :
    Balance service (i.offer service bytes) (sent ++ bytes) := by
  rw [offerDeliver balance]
  exact deliverBalance balance fits

theorem storedOffer {bytes : Bytes} (balance : Balance service i sent)
    (fits : (i.push bytes).buffer.stored.length < Word.size) :
    (i.offer service bytes).buffer.stored.length ≤ i.buffer.stored.length + bytes.length := by
  have pushed : (i.push bytes).buffer.stored.length = i.buffer.stored.length + bytes.length :=
    List.length_append
  unfold offer
  split
  · exact Nat.le_of_eq pushed
  · rename_i waits
    obtain ⟨sound, _, here⟩ := balance.pushed (Bool.eq_false_iff.mpr waits) fits
    obtain ⟨_, _, _, out⟩ := callPlain service (i := i.push bytes) sound here
    exact pushed ▸ out.stored

theorem offerFits {bytes : Bytes} {rest : List Bytes} (balance : Balance service i sent)
    (fits : i.buffer.stored.length + (bytes :: rest).flatten.length < Word.size) :
    (i.push bytes).buffer.stored.length < Word.size ∧
      (i.offer service bytes).buffer.stored.length + rest.flatten.length < Word.size := by
  have pushed : (i.push bytes).buffer.stored.length = i.buffer.stored.length + bytes.length := List.length_append
  rw [List.flatten_cons, List.length_append] at fits
  have now : (i.push bytes).buffer.stored.length < Word.size := by omega
  have grown := storedOffer balance now
  exact ⟨now, by omega⟩

theorem offersBalance {deliveries : List Bytes} (balance : Balance service i sent)
    (fits : i.buffer.stored.length + deliveries.flatten.length < Word.size) :
    Balance service (deliveries.foldl (offer service) i) (sent ++ deliveries.flatten) := by
  induction deliveries generalizing i sent with
  | nil => simpa using balance
  | cons bytes rest ih =>
    obtain ⟨now, behind⟩ := offerFits balance fits
    have later := ih (offerBalance balance now) behind
    simpa only [List.foldl_cons, List.flatten_cons, List.append_assoc] using later

theorem crowdedPlain (service : Service) {b : OffsetBuffer} {r : Request} (sound : b.Sound) (pending : Pending r sent b.unread) :
    Crowded service r b ↔ Crowded service r b.unread := by
  have plain : (Request.read service r b).Plain b (Request.read service r b.unread) :=
    Request.readPlain sound pending
  unfold Crowded
  rw [← plain.same]
  rfl

theorem offerPlain {bytes : Bytes} (balance : Balance service i sent) (waits : i.due = false)
    (fits : (i.push bytes).buffer.stored.length < Word.size) :
    ∃ held, Pending i.request held (i.buffer.unread ++ bytes) ∧
      (Crowded service i.request (i.push bytes).buffer ↔
        Crowded service i.request (i.buffer.unread ++ bytes)) ∧
      (i.offer service bytes).request = (i.request.advance service (i.buffer.unread ++ bytes)).request ∧
      (i.offer service bytes).due = (i.request.advance service (i.buffer.unread ++ bytes)).due ∧
      (i.offer service bytes).buffer.unread = (i.request.advance service (i.buffer.unread ++ bytes)).buffer := by
  obtain ⟨sound, unread, here⟩ := balance.pushed waits fits
  obtain ⟨request, due, buffer, _⟩ := callPlain service (i := i.push bytes) sound here
  have crowded := crowdedPlain service sound here
  rw [unread] at here crowded request due buffer
  have same : i.offer service bytes = (i.push bytes).call service := by simp [offer, waits, deliver]
  rw [same]
  exact ⟨_, here, crowded, request, due, buffer⟩

theorem offersDue {deliveries : List Bytes} (due : i.due = true) (inside : i.buffer.start ≤ i.buffer.stored.length) :
    (deliveries.foldl (offer service) i).progress =
      { i.progress with buffer := i.buffer.unread ++ deliveries.flatten } := by
  induction deliveries generalizing i with
  | nil => simp [progress]
  | cons bytes rest ih =>
    have pushed : i.offer service bytes = i.push bytes := by simp [offer, due]
    have unread : (i.push bytes).buffer.unread = i.buffer.unread ++ bytes := OffsetBuffer.unreadAppend inside bytes
    have later := ih (i := i.push bytes) due (by simp [push, OffsetBuffer.append]; omega)
    simp only [List.foldl_cons, pushed, later, unread, List.flatten_cons, List.append_assoc]
    rfl

theorem offersLike {first : Bytes} {rest : List Bytes} (balance : Balance service i sent) (waits : i.due = false)
    (fits : i.buffer.stored.length + (first :: rest).flatten.length < Word.size)
    (calm : Calm service i (first :: rest)) :
    (i.request.advance service (i.buffer.unread ++ (first :: rest).flatten)).Like
      ((first :: rest).foldl (offer service) i).progress := by
  -- Both sides start from any waiting request: the one call on the left is taken
  -- apart at the first cut, and the rest of it starts where the first call stopped.
  induction rest generalizing i sent first with
  | nil =>
    have now : (i.push first).buffer.stored.length < Word.size := by
      simpa [push, OffsetBuffer.append] using fits
    obtain ⟨_, _, _, request, due, buffer⟩ := offerPlain balance waits now
    simp only [List.foldl_cons, List.foldl_nil, List.flatten_cons, List.flatten_nil, List.append_nil]
    exact ⟨due.symm, buffer.symm, by rw [progress, request], fun _ => request.symm⟩
  | cons second rest ih =>
    obtain ⟨now, behind⟩ := offerFits balance fits
    obtain ⟨held, pending, crowded, request, due, buffer⟩ := offerPlain balance waits now
    have next := offerBalance balance now
    rw [List.foldl_cons, List.flatten_cons, ← List.append_assoc]
    by_cases ended : (i.offer service first).due = true
    · -- The first call was the last one, and one with more bytes ends in the same way.
      have through := Request.advanceDue pending (due ▸ ended) (fun long => calm.1 waits (crowded.mpr long))
        (second :: rest).flatten
      rw [offersDue ended next.sound.inside, through]
      exact ⟨due.symm, by simp only [buffer], by simp only [progress, request], fun _ => request.symm⟩
    · have more : (i.request.advance service (i.buffer.unread ++ first)).due = false := by
        rw [← due]
        exact Bool.eq_false_iff.mpr ended
      have onward := ih next (Bool.eq_false_iff.mpr ended) behind calm.2
      have joined := Request.advanceMore pending more (second :: rest).flatten
      rw [← request, ← buffer] at joined
      exact joined.trans onward

theorem shortHead {head : Bytes} (balance : Balance service i sent) (isHead : IsHead head)
    (inside : head <+: sent) (short : head.length ≤ service.limits.headLimit) :
    i.request.status ≠ .requestHeaderFieldsTooLarge := by
  cases balance.account with
  | waits _ pending => simp [pending.status]
  | through _ _ _ _ status =>
    rcases status with ok | missing
    · simp [ok]
    · simp [missing]
  | refused _ _ _ known status =>
    rw [status]
    exact (faultStatus known).2.2
  | crowded _ _ _ early noBlank long =>
    have before := List.prefix_of_prefix_length_le inside early (Nat.le_trans short long)
    exact absurd isHead.closed (noBlank head before)

theorem deliveriesResume (service : Service) (first : Bytes) (rest : List Bytes)
    (word : (first :: rest).flatten.length < Word.size) :
    let cut := offerAll service (first :: rest)
    let whole := deliver service {} (first :: rest).flatten
    (Calm service {} (first :: rest) →
      cut.due = whole.due ∧ cut.buffer.unread = whole.buffer.unread ∧
      cut.request.parked = whole.request.parked ∧
      (cut.request.failed = false → cut.request = whole.request)) ∧
    (∀ head, IsHead head → head <+: (first :: rest).flatten → head.length ≤ service.limits.headLimit →
      cut.request.status ≠ .requestHeaderFieldsTooLarge) := by
  intro cut whole
  have fresh := freshBalance service
  have fits : ({} : Intake).buffer.stored.length + (first :: rest).flatten.length < Word.size := by
    simpa using word
  refine ⟨fun calm => ?_, fun head isHead inside short => ?_⟩
  · have like : (Request.advance service {} (first :: rest).flatten).Like cut.progress :=
      offersLike fresh rfl fits calm
    obtain ⟨request, due, buffer⟩ := deliverFresh service word
    refine ⟨like.due.symm.trans due.symm, like.buffer.symm.trans buffer.symm, ?_, fun accepted => ?_⟩
    · rw [request]
      exact like.request.symm
    · rw [request]
      exact (like.exact (like.failed.trans accepted)).symm
  · have balance : Balance service cut ([] ++ (first :: rest).flatten) := offersBalance fresh fits
    exact shortHead balance isHead inside short

theorem deliveriesResumeInPieces :
    let service : Service := ⟨⟨[(ascii "a", .file [0x2a])]⟩, {}, ChainTable.byteHash⟩
    let first := ascii "GET /a HTTP/1.1\r\nHo"
    let rest := [ascii "st: b\r\n\r", ascii "\nGET"]
    Calm service {} (first :: rest) ∧ (offerAll service (first :: rest)).due = true ∧
      (offerAll service (first :: rest)).buffer.unread =
        (deliver service {} (first :: rest).flatten).buffer.unread ∧
      (offerAll service (first :: rest)).request = (deliver service {} (first :: rest).flatten).request ∧
      (offerAll service (first :: rest)).request.status ≠ .requestHeaderFieldsTooLarge := by
  intro service first rest
  have calm : Calm service {} (first :: rest) := by decide +kernel
  have run : (offerAll service (first :: rest)).due = true ∧
      (offerAll service (first :: rest)).request.failed = false := by decide +kernel
  have text : (first :: rest).flatten.length < Word.size ∧ IsHead ((first :: rest).flatten.take 28) ∧
      ((first :: rest).flatten.take 28).length ≤ service.limits.headLimit := by decide +kernel
  obtain ⟨due, accepted⟩ := run
  obtain ⟨word, isHead, short⟩ := text
  have resume := deliveriesResume service first rest word
  obtain ⟨_, unread, _, exact⟩ := resume.1 calm
  exact ⟨calm, due, unread, exact accepted, resume.2 _ isHead (List.take_prefix 28 _) short⟩

end StaticHttp.Intake
