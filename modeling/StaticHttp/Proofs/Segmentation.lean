import StaticHttp.Calendar
import StaticHttp.Proofs.Prospect
/-! The run of a connection over its reads. A client that sends the same bytes in
other pieces receives the same bytes. -/
namespace StaticHttp.Connection
open Outlook (answers outlook)

def reads (service : Service) (chunks : List Bytes) : List Bytes :=
  chunks.flatMap (pieces service.limits.readLimit)

def Fits (service : Service) (clock : Clock) : Connection → List Bytes → Prop
  | _, [] => True
  | c, read :: rest =>
      c.intake.size + read.length < Word.size ∧ Fits service clock (c.deliver service clock read) rest

instance fitsDecidable (service : Service) (clock : Clock) : (c : Connection) → (reads : List Bytes) →
    Decidable (Fits service clock c reads)
  | _, [] => .isTrue trivial
  | c, read :: rest =>
      have := fitsDecidable service clock (c.deliver service clock read) rest
      inferInstanceAs (Decidable (_ ∧ _))

variable {service : Service} {clock : Clock} {c : Connection}

theorem receivedGiven (c : Connection) : c.received = c.given.flatten := by
  simp only [received, given, List.flatMap]

theorem piecesEach {size : Nat} {bytes piece : Bytes} (inside : piece ∈ pieces size bytes) :
    piece ≠ [] ∧ piece.length ≤ size := by
  induction bytes using pieces.induct size with
  | case1 bytes none =>
    rw [pieces, if_pos none] at inside
    simp at inside
  | case2 bytes some ih =>
    rw [pieces, if_neg some] at inside
    rcases List.mem_cons.mp inside with rfl | later
    · obtain ⟨positive, full⟩ := not_or.mp some
      refine ⟨fun empty => ?_, List.length_take_le size bytes⟩
      rcases List.take_eq_nil_iff.mp empty with zero | nothing
      · exact positive zero
      · exact full nothing
    · exact ih later

theorem piecesFlatten {size : Nat} (positive : size ≠ 0) (bytes : Bytes) :
    (pieces size bytes).flatten = bytes := by
  induction bytes using pieces.induct size with
  | case1 bytes none =>
    rw [pieces, if_pos none]
    rcases none with zero | rfl
    · exact absurd zero positive
    · rfl
  | case2 bytes some ih => rw [pieces, if_neg some, List.flatten_cons, ih, List.take_append_drop]

theorem readsFlatten (positive : service.limits.readLimit ≠ 0) (chunks : List Bytes) :
    (reads service chunks).flatten = chunks.flatten := by
  unfold reads
  induction chunks with
  | nil => rfl
  | cons chunk rest ih =>
    rw [List.flatMap_cons, List.flatten_append, ih, piecesFlatten positive, List.flatten_cons]

theorem readsNothing (zero : service.limits.readLimit = 0) (chunks : List Bytes) : reads service chunks = [] := by
  unfold reads
  induction chunks with
  | nil => rfl
  | cons chunk rest ih =>
    rw [List.flatMap_cons, ih, pieces, if_pos (.inl zero)]
    rfl

theorem readsSame {chunks others : List Bytes} (same : chunks.flatten = others.flatten) :
    (reads service chunks).flatten = (reads service others).flatten := by
  by_cases zero : service.limits.readLimit = 0
  · rw [readsNothing zero, readsNothing zero]
  · rw [readsFlatten zero, readsFlatten zero, same]

theorem deliveriesProspect {reads : List Bytes} (each : ∀ read ∈ reads, read ≠ [] ∧ read.length ≤ service.limits.readLimit)
    (fits : Fits service clock c reads) (standing : c.stage = .serving → Ready c ∧ Parked service c)
    (calm : Calm (reads.foldl (deliver service clock) c)) :
    (reads.foldl (deliver service clock) c).given = prospect service clock c reads.flatten := by
  -- Each read moves its bytes from the rest into the connection and leaves the prospect
  -- as it was. After the last one nothing more can be read, so it is what was given.
  induction reads generalizing c with
  | nil =>
    rw [List.foldl_nil, List.flatten_nil, prospect, List.append_nil]
    split
    · rename_i serves
      rcases (standing serves).2 with nothing | waits
      · rw [outlook, if_pos nothing, List.append_nil]
      · rw [Outlook.outlookWaits _ _ waits, List.append_nil]
    · rw [List.append_nil]
  | cons read rest ih =>
    obtain ⟨some, small⟩ := each read (by simp)
    have now : Calm (c.deliver service clock read) := calm.before (exchangesDeliveries service clock rest _)
    obtain ⟨same, standing⟩ := deliverProspect some small fits.1 (fun serves => (standing serves).1) now rest.flatten
    rw [List.foldl_cons, List.flatten_cons, same]
    exact ih (fun read inside => each read (by simp [inside])) fits.2 standing calm

theorem readsEach {chunks : List Bytes} {read : Bytes} (inside : read ∈ reads service chunks) :
    read ≠ [] ∧ read.length ≤ service.limits.readLimit := by
  obtain ⟨chunk, _, piece⟩ := List.mem_flatMap.mp inside
  exact piecesEach piece

theorem givenAnswers {chunks : List Bytes} (fits : Fits service clock {} (reads service chunks))
    (calm : Calm (run service clock chunks)) :
    (run service clock chunks).given = answers service clock 0 (reads service chunks).flatten := by
  have fresh : ({} : Connection).stage = .serving → Ready {} ∧ Parked service {} := by
    intro _
    exact ⟨⟨⟨Nat.le_refl _, by decide⟩, rfl, [], Request.freshPending []⟩, .inl rfl⟩
  have prospected := deliveriesProspect (fun _ => readsEach) fits fresh calm
  rw [Outlook.answersOutlook]
  exact prospected

theorem segmentationInvisible (service : Service) (clock other : Clock) (chunks others : List Bytes)
    (same : chunks.flatten = others.flatten) (now : clock.now = other.now)
    (side : ∀ n, clock.age n > service.limits.connectionTime ↔ other.age n > service.limits.connectionTime)
    (fits : Fits service clock {} (reads service chunks)) (otherFits : Fits service other {} (reads service others))
    (calm : Calm (run service clock chunks)) (otherCalm : Calm (run service other others)) :
    (run service clock chunks).received = (run service other others).received := by
  have sides (k : Nat) : clock.age (0 + k) > service.limits.connectionTime ↔
      other.age (0 + k) > service.limits.connectionTime := side (0 + k)
  rw [receivedGiven, receivedGiven, givenAnswers fits calm, givenAnswers otherFits otherCalm, readsSame same,
    Outlook.answersSide now sides]

theorem segmentationInvisibleInPieces :
    let service : Service := ⟨⟨[(ascii "a", .file [0x2a])]⟩, {}, ChainTable.byteHash⟩
    let clock : Clock := ⟨Calendar.httpDate 784111777, fun _ => 0⟩
    let chunks := [ascii "GET /a HTTP/1.1\r\n\r\nGE", [], ascii "T /b HTTP/1.1\r\n\r", ascii "\n"]
    (run service clock chunks).given.length = 2 ∧
      (run service clock chunks).received = (run service clock [chunks.flatten]).received := by
  intro service clock chunks
  have two : (run service clock chunks).given.length = 2 := by decide +kernel
  have same : chunks.flatten = [chunks.flatten].flatten := by decide +kernel
  have pieces : Fits service clock {} (reads service chunks) ∧ Calm (run service clock chunks) := by decide +kernel
  have whole : Fits service clock {} (reads service [chunks.flatten]) ∧
      Calm (run service clock [chunks.flatten]) := by decide +kernel
  obtain ⟨fits, calm⟩ := pieces
  obtain ⟨wholeFits, wholeCalm⟩ := whole
  exact ⟨two, segmentationInvisible service clock clock chunks [chunks.flatten] same rfl (fun _ => Iff.rfl) fits
    wholeFits calm wholeCalm⟩

end StaticHttp.Connection
