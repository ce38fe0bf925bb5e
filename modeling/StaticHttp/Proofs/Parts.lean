import StaticHttp.Proofs.Outlook
/-! One request out of a stream. The bytes that a request has used up are a whole
request by themselves, and what waits for more can always be brought to its end. -/
namespace StaticHttp

namespace Progress

theorem Like.refl (p : Progress Bytes) : p.Like p := ⟨rfl, rfl, rfl, fun _ => rfl⟩

theorem Like.keeps {p q : Progress Bytes} (like : p.Like q) : p.request.keepsAlive = q.request.keepsAlive := by
  have same : p.request.parked.keepsAlive = q.request.parked.keepsAlive := by rw [like.request]
  exact same

end Progress

namespace Request
open HeadEnd (Open Closed)

structure Whole (service : Service) (bytes : Bytes) : Prop where
  due : (advance service {} bytes).due = true
  used : (advance service {} bytes).buffer = []

variable {service : Service} {r : Request} {sent held : Bytes}

theorem AtHeaders.inHead (headers : AtHeaders r held) : r.inHead = true := by
  simp [Request.inHead, headers.phase]

theorem AtLine.inHead (line : AtLine r held) : r.inHead = true := by
  simp [Request.inHead, line.phase]

theorem bodyDrained (body : AtBody r) (more : (read service r held).outcome = .more) :
    (read service r held).buffer = [] := by
  rw [readBody body] at more ⊢
  obtain ⟨_, same, _⟩ := takeBodyMore body more
  rw [same]

theorem headersDrained (headers : AtHeaders r held) (more : (read service r held).outcome = .more) :
    (read service r held).request.inHead = true ∨ (read service r held).buffer = [] := by
  rw [readHeaders headers] at more ⊢
  by_cases found : (takeHeaders service r held).outcome = .found ()
  · obtain ⟨body, _⟩ := takeHeadersFound headers found
    simp only [Turn.andThenFound found] at more ⊢
    exact .inr (bodyDrained body more)
  · rw [Turn.andThenStopped found] at more ⊢
    obtain ⟨_, _, same, _, again⟩ := takeHeadersMore headers more
    rw [same]
    exact .inl again.inHead

theorem lineDrained (line : AtLine r held) (more : (read service r held).outcome = .more) :
    (read service r held).request.inHead = true ∨ (read service r held).buffer = [] := by
  rw [readLine line] at more ⊢
  by_cases found : (takeLine service r held).outcome = .found ()
  · obtain ⟨same, headers⟩ := takeLineFound line found
    simp only [Turn.andThenFound found, same] at more ⊢
    exact headersDrained headers more
  · rw [Turn.andThenStopped found] at more ⊢
    obtain ⟨_, _, same, _, again⟩ := takeLineMore line more
    rw [same]
    exact .inl again.inHead

theorem Pending.drained (pending : Pending r sent held) (more : (read service r held).outcome = .more) :
    (read service r held).request.inHead = true ∨ (read service r held).buffer = [] := by
  cases pending.waits with
  | line line _ => exact lineDrained line more
  | headers headers _ => exact headersDrained headers more
  | body body _ _ => exact .inr (bodyDrained body more)

theorem waitsDrained (pending : Pending r sent held) (waits : (advance service r held).due = false) :
    (advance service r held).request.inHead = true ∨ (advance service r held).buffer = [] := by
  obtain ⟨more, same⟩ := settleWaits waits
  have drained := pending.drained more
  simp only [advance, same]
  exact drained

theorem waitsShort (waits : (advance service r held).due = false)
    (reading : (advance service r held).request.inHead = true) :
    (advance service r held).buffer.length < service.limits.headLimit := by
  obtain ⟨more, same⟩ := settleWaits waits
  simp only [advance, same] at reading ⊢
  simp only [advance, settle, more, reading, Bool.true_and, ByteQueue.unreadBytes] at waits
  split at waits
  · contradiction
  · rename_i roomy
    simpa using roomy

theorem waitsSmall (pending : Pending r sent held) (waits : (advance service r held).due = false) :
    (advance service r held).buffer = [] ∨ (advance service r held).buffer.length < service.limits.headLimit :=
  (waitsDrained pending waits).symm.imp_right (waitsShort waits)

theorem waitsPending (pending : Pending r sent held) (waits : (advance service r held).due = false) :
    Pending (advance service r held).request sent (advance service r held).buffer ∧
      ((advance service r held).request.inHead = true → Open sent) := by
  have call : CallEnd service sent (advance service r held) := pending.callEnd
  generalize advance service r held = p at call waits
  cases call with
  | waits pending noBlank => exact ⟨pending, noBlank⟩
  | through => contradiction
  | refused => contradiction
  | crowded => contradiction

theorem closedBreaks (text : Bytes) : ¬ Open (text ++ [Byte.lf, Byte.lf]) :=
  fun noBlank => noBlank _ (List.prefix_refl _) (.inl (List.suffix_append _ _))

theorem Pending.behindHead (pending : Pending r sent held) (past : r.inHead ≠ true) :
    AtBody r ∧ r.draft.bodyRead < r.draft.contentLength := by
  cases pending.waits with
  | line line _ => exact absurd line.inHead past
  | headers headers _ => exact absurd headers.inHead past
  | body body lacking _ => exact ⟨body, lacking⟩

theorem bodyEnds (body : AtBody r) {n : Nat} (whole : r.draft.bodyRead + n = r.draft.contentLength) :
    (advance service r (List.replicate n 0 : Bytes)).due = true := by
  rw [advance, readBody body, takeBodyWhole body.cursor (by simp) whole]
  rfl

theorem endable (service : Service) (pending : Pending r sent held) :
    ∃ bytes, bytes ≠ [] ∧ (advance service r (held ++ bytes)).due = true := by
  by_cases due : (advance service r (held ++ [Byte.lf, Byte.lf])).due = true
  · exact ⟨_, by simp, due⟩
  · have waits := Bool.eq_false_iff.mpr due
    have further : Pending r (sent ++ [Byte.lf, Byte.lf]) (held ++ [Byte.lf, Byte.lf]) := pending.append _
    obtain ⟨still, noBlank⟩ := waitsPending further waits
    have past : (advance service r (held ++ [Byte.lf, Byte.lf])).request.inHead ≠ true :=
      fun inHead => closedBreaks sent (noBlank inHead)
    obtain ⟨body, lacking⟩ := still.behindHead past
    have nothing := (waitsDrained further waits).resolve_left past
    obtain ⟨n, whole⟩ := Nat.exists_eq_add_of_le (Nat.le_of_lt lacking)
    have like := advanceMore further waits (List.replicate n 0)
    refine ⟨[Byte.lf, Byte.lf] ++ List.replicate n 0, by simp, ?_⟩
    rw [← List.append_assoc, like.due, nothing]
    exact bodyEnds body whole.symm

theorem Parted.split {draft : Draft} {bytes rest head : Bytes} (parted : Parted draft (bytes ++ rest) rest head) :
    head <+: bytes := by
  obtain ⟨body, whole, _⟩ := parted.parts
  exact ⟨body, (List.append_cancel_right whole).symm⟩

theorem emptyWaits (service : Service) (pending : Pending r sent []) :
    sent = [] ∨ (advance service r ([] : Bytes)).due = false := by
  by_cases inHead : r.inHead = true
  · exact .inl (pending.headHeld inHead)
  · obtain ⟨body, lacking⟩ := pending.behindHead inHead
    have phase : (r.counted 0).phase = .body := body.phase
    have short : takeBody r ([] : Bytes) = ⟨r.counted 0, [], .more, []⟩ := takeBodyShort body.cursor lacking
    refine .inr ?_
    rw [advance, readBody body, short]
    simp [settle, Request.inHead, phase]

theorem crowdedOpen (pending : Pending r sent held) (long : Crowded service r held) : Open sent := by
  obtain ⟨more, inHead, _⟩ := long
  have reading : Reading sent (read service r held) := pending.reading
  generalize read service r held = t at reading more inHead
  cases reading with
  | more _ noBlank => exact noBlank inHead
  | found => contradiction
  | failed => contradiction

theorem wholePart {bytes rest : Bytes} (due : (advance service {} (bytes ++ rest)).due = true)
    (keeps : (advance service {} (bytes ++ rest)).request.keepsAlive = true)
    (left : (advance service {} (bytes ++ rest)).buffer = rest) :
    Whole service bytes ∧ (advance service {} bytes).request = (advance service {} (bytes ++ rest)).request := by
  have pending := freshPending bytes
  obtain ⟨head, parted⟩ := Outlook.keptThrough (freshPending (bytes ++ rest)).callEnd due keeps
  rw [left] at parted
  have notOpen : ¬ Open bytes := fun noBlank => noBlank head parted.split parted.isHead.closed
  by_cases ended : (advance service {} bytes).due = true
  · have same := advanceDue pending ended (fun long => notOpen (crowdedOpen pending long)) rest
    have request := congrArg Progress.request same
    have buffer := congrArg Progress.buffer same
    exact ⟨⟨ended, List.append_left_eq_self.mp (buffer.symm.trans left)⟩, request.symm⟩
  · -- A body that lacked bytes would have taken some of the rest.
    have waits := Bool.eq_false_iff.mpr ended
    obtain ⟨still, noBlank⟩ := waitsPending pending waits
    have past : (advance service {} bytes).request.inHead ≠ true := fun inHead => notOpen (noBlank inHead)
    have nothing := (waitsDrained pending waits).resolve_left past
    have like := advanceMore pending waits rest
    have further := still.append rest
    rw [nothing, List.nil_append] at like further
    have shorter := Outlook.consumes further (like.due ▸ due) (like.keeps ▸ keeps)
    rw [← like.buffer, left] at shorter
    exact absurd shorter (Nat.lt_irrefl _)

end Request
end StaticHttp
