import StaticHttp.Proofs.Resumption
/-! What becomes of the bytes that are sent to a request. While its head is read
they are all held. Behind the head they are the head, the body bytes counted so
far and the held ones, in this order, and the request is through at the byte
where its body ends. A request that is refused has given up none of them. -/
namespace StaticHttp

namespace Request
open HeadEnd (IsHead Open)
open Draft (lineFaults headerFaults LengthTold)

structure Parted (draft : Draft) (sent held head : Bytes) : Prop where
  isHead : IsHead head
  told : LengthTold draft head
  parts : ∃ body, sent = head ++ body ++ held ∧ body.length = draft.bodyRead

inductive Waits (r : Request) (sent held : Bytes) : Prop where
  | line (line : AtLine r held) (whole : sent = held)
  | headers (headers : AtHeaders r held) (whole : sent = held)
  | body (body : AtBody r) (lacking : r.draft.bodyRead < r.draft.contentLength) {head : Bytes}
      (parted : Parted r.draft sent held head)

structure Pending (r : Request) (sent held : Bytes) : Prop where
  status : r.status = .ok
  unfailed : r.failed = false
  waits : Waits r sent held

variable {service : Service} {r : Request} {sent held : Bytes}

theorem freshPending (held : Bytes) : Pending {} held held :=
  ⟨rfl, rfl, .line (freshAtLine held) rfl⟩

theorem Parted.front {draft : Draft} {head : Bytes} (parted : Parted draft sent held head) : head <+: sent := by
  obtain ⟨body, whole, _⟩ := parted.parts
  exact ⟨body ++ held, by rw [whole, List.append_assoc]⟩

theorem Parted.append {draft : Draft} {head : Bytes} (parted : Parted draft sent held head) (rest : Bytes) :
    Parted draft (sent ++ rest) (held ++ rest) head := by
  obtain ⟨body, whole, count⟩ := parted.parts
  exact ⟨parted.isHead, parted.told, body, by simp [whole], count⟩

theorem Pending.append (pending : Pending r sent held) (rest : Bytes) :
    Pending r (sent ++ rest) (held ++ rest) := by
  refine ⟨pending.status, pending.unfailed, ?_⟩
  cases pending.waits with
  | line line whole => exact .line (line.append rest) (by rw [whole])
  | headers headers whole => exact .headers (headers.append rest) (by rw [whole])
  | body body lacking parted => exact .body body lacking (parted.append rest)

theorem Pending.resumes (pending : Pending r sent held) : Resumes (read service) r held := by
  cases pending.waits with
  | line line => exact lineResumes line
  | headers headers => exact headersResumes headers
  | body body _ _ => exact bodyResumes body

inductive Reading (sent : Bytes) : Turn Bytes → Prop where
  | more {r : Request} {held : Bytes} {events : List Event} (pending : Pending r sent held)
      (noBlank : r.inHead = true → Open sent) : Reading sent ⟨r, held, .more, events⟩
  | found {r : Request} {held head : Bytes} {events : List Event} (parted : Parted r.draft sent held head)
      (full : r.draft.bodyRead = r.draft.contentLength) (done : r.phase = .done)
      (status : r.status = .ok ∨ r.status = .notFound) : Reading sent ⟨r, held, .found (), events⟩
  | failed {r : Request} {fault : Fault} {events : List Event} (known : fault ∈ lineFaults ++ headerFaults) :
      Reading sent ⟨r, sent, .failed fault, events⟩

theorem Reading.logged {t : Turn Bytes} (reading : Reading sent t) (events : List Event) :
    Reading sent { t with events := events } := by
  cases reading with
  | more pending noBlank => exact .more pending noBlank
  | found parted full done status => exact .found parted full done status
  | failed known => exact .failed known

theorem Reading.through {t : Turn Bytes} {next : Request → Bytes → Turn Bytes}
    (stopped : t.outcome ≠ .found () → Reading sent t)
    (onward : t.outcome = .found () → Reading sent (next t.request t.buffer)) :
    Reading sent (t.andThen next) := by
  by_cases found : t.outcome = .found ()
  · rw [Turn.andThenFound found]
    exact (onward found).logged _
  · rw [Turn.andThenStopped found]
    exact stopped found

theorem concludeStatus (r : Request) (status : r.status = .ok) :
    r.conclude.1.status = .ok ∨ r.conclude.1.status = .notFound := by
  unfold conclude
  split
  · exact .inr rfl
  · exact .inl status

theorem concludeDraft (r : Request) : r.conclude.1.draft = r.draft ∧ r.conclude.1.phase = .done := by
  unfold conclude
  split
  · exact ⟨rfl, rfl⟩
  · exact ⟨rfl, rfl⟩

theorem Parted.counted {head : Bytes} {n : Nat} (parted : Parted r.draft sent held head) (there : n ≤ held.length) :
    Parted (r.counted n).draft sent (held.drop n) head := by
  obtain ⟨body, whole, count⟩ := parted.parts
  refine ⟨parted.isHead, parted.told, body ++ held.take n, ?_, ?_⟩
  · rw [List.append_assoc, List.append_assoc, List.take_append_drop, whole, List.append_assoc]
  · simp only [List.length_append, count, List.length_take_of_le there, Request.counted]

theorem bodyReading {head : Bytes} (body : AtBody r) (status : r.status = .ok) (unfailed : r.failed = false)
    (parted : Parted r.draft sent held head) : Reading sent (read service r held) := by
  rw [readBody body]
  have turn : BodyTurn r held (takeBody r held) := bodyTurn body
  generalize takeBody r held = t at turn
  cases turn with
  | more lacking =>
    have phase : (r.counted held.length).phase = .body := body.phase
    have counted := parted.counted (Nat.le_refl _)
    rw [List.drop_length] at counted
    refine .more ⟨status, unfailed, .body ⟨phase, rfl, Nat.le_of_lt lacking⟩ lacking counted⟩ ?_
    simp [inHead, phase]
  | found there whole =>
    obtain ⟨draft, done⟩ := concludeDraft (r.counted _)
    refine .found (draft ▸ parted.counted there) ?_ done (concludeStatus _ status)
    rw [draft]
    exact whole

theorem headersReading (headers : AtHeaders r held) (status : r.status = .ok) (unfailed : r.failed = false) :
    Reading held (read service r held) := by
  rw [readHeaders headers]
  have turn : HeadersTurn service.hash service.limits r held (takeHeaders service r held) := headersTurn headers
  refine .through (fun stopped => ?_) fun found => ?_
  · cases ended : (takeHeaders service r held).outcome with
    | found => exact absurd ended stopped
    | more =>
      obtain ⟨d, _, same, cursor, again⟩ := takeHeadersMore headers ended
      have noBlank := again.known.noBlank
      rw [cursor, List.take_length] at noBlank
      rw [same]
      exact .more ⟨status, unfailed, .headers again rfl⟩ fun _ => noBlank
    | failed fault =>
      generalize takeHeaders service r held = t at turn ended
      cases turn with
      | more => contradiction
      | found => contradiction
      | failed d fault known => exact .failed (List.mem_append_right _ known)
  · obtain ⟨body, noBody, head, isHead, parts, told⟩ := takeHeadersFound headers found
    generalize takeHeaders service r held = t at turn found body noBody parts told ⊢
    cases turn with
    | found read =>
      exact bodyReading body status unfailed ⟨isHead, told, [], by simpa using parts, noBody.symm⟩
    | more => contradiction
    | failed => contradiction

theorem lineReading (line : AtLine r held) (status : r.status = .ok) (unfailed : r.failed = false) :
    Reading held (read service r held) := by
  rw [readLine line]
  have turn : LineTurn r held (takeLine service r held) := lineTurn line
  refine .through (fun stopped => ?_) fun found => ?_
  · cases ended : (takeLine service r held).outcome with
    | found => exact absurd ended stopped
    | more =>
      obtain ⟨d, _, same, cursor, again⟩ := takeLineMore line ended
      have oneLine := again.known.oneLine
      rw [cursor, List.take_length] at oneLine
      rw [same]
      exact .more ⟨status, unfailed, .line again rfl⟩ fun _ => HeadEnd.openUnbroken oneLine
    | failed fault =>
      generalize takeLine service r held = t at turn ended
      cases turn with
      | more => contradiction
      | found => contradiction
      | failed d fault known => exact .failed (List.mem_append_left _ known)
  · obtain ⟨same, headers⟩ := takeLineFound line found
    generalize takeLine service r held = t at turn found same headers ⊢
    cases turn with
    | found read => exact headersReading headers status unfailed
    | more => contradiction
    | failed => contradiction

theorem Pending.reading (pending : Pending r sent held) : Reading sent (read service r held) := by
  cases pending.waits with
  | line line whole =>
    subst whole
    exact lineReading line pending.status pending.unfailed
  | headers headers whole =>
    subst whole
    exact headersReading headers pending.status pending.unfailed
  | body body _ parted => exact bodyReading body pending.status pending.unfailed parted

end Request
end StaticHttp
