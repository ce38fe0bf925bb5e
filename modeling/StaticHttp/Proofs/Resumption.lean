import StaticHttp.Proofs.Stages
/-! A reading that runs out of bytes and is taken up again with more of them comes
to what one reading of all the bytes comes to. A reading that has come to an end
is not changed by bytes that arrive later. Each stage has both properties, and so
has the request that goes through them. -/
namespace StaticHttp

namespace Request

def parked (r : Request) : Request := { r with draft := r.draft.parked 0 }

end Request

namespace Turn

/- The same turn as far as a later one can tell. Refused requests may differ in the
cursor, and what was logged is left aside. -/
structure Like (t u : Turn Bytes) : Prop where
  outcome : t.outcome = u.outcome
  buffer : t.buffer = u.buffer
  request : t.request.parked = u.request.parked
  exact : (∀ fault, t.outcome ≠ .failed fault) → t.request = u.request

theorem Like.refl (t : Turn Bytes) : t.Like t := ⟨rfl, rfl, rfl, fun _ => rfl⟩

theorem Like.andThen {t u : Turn Bytes} (like : t.Like u) (next : Request → Bytes → Turn Bytes) :
    (t.andThen next).Like (u.andThen next) := by
  have outcome := like.outcome
  cases left : t.outcome with
  | found =>
    have request := like.exact fun fault => by simp [left]
    simp only [Turn.andThen, left, outcome ▸ left, request, like.buffer]
    exact ⟨rfl, rfl, rfl, fun _ => rfl⟩
  | more => simpa only [Turn.andThen, left, outcome ▸ left] using like
  | failed fault => simpa only [Turn.andThen, left, outcome ▸ left] using like

def ahead (t : Turn Bytes) (rest : Bytes) : Turn Bytes := { t with buffer := t.buffer ++ rest }

end Turn

structure Resumes (reader : Request → Bytes → Turn Bytes) (r : Request) (held : Bytes) : Prop where
  more : (reader r held).outcome = .more → ∀ rest,
    (reader r (held ++ rest)).Like
      (reader (reader r held).request ((reader r held).buffer ++ rest))
  ended : (reader r held).outcome ≠ .more → ∀ rest, reader r (held ++ rest) = (reader r held).ahead rest

namespace Request
open Draft (InLine InHead Agree)
variable {service : Service} {r : Request} {held : Bytes}

theorem takeLineLike {e : Draft} (agree : Agree (r.draft.readRequestLine held) (e.readRequestLine held)) :
    (takeLine service r held).Like (takeLine service { r with draft := e } held) := by
  cases left : r.draft.readRequestLine held with
  | mk x outcome =>
    cases right : e.readRequestLine held with
    | mk y other =>
      rw [left, right] at agree
      obtain rfl : outcome = other := agree.outcome
      simp only [takeLine, ByteQueue.unreadBytes, left, right]
      cases outcome with
      | more =>
        obtain rfl : x = y := agree.exact (by simp)
        exact .refl _
      | found =>
        obtain rfl : x = y := agree.exact (by simp)
        exact .refl _
      | failed fault =>
        refine ⟨rfl, rfl, ?_, fun accepted => absurd rfl (accepted fault)⟩
        have draft : x.parked 0 = y.parked 0 := agree.draft
        simp only [parked, draft]

theorem locateAhead (extension : r.draft.target.extension.reach ≤ held.length) (path rest : Bytes) :
    locate service r (held ++ rest) path = (locate service r held path).ahead rest := by
  have suffix : ∀ opened, Request.extension r.draft (held ++ rest) opened =
      Request.extension r.draft held opened := by
    intro opened
    unfold Request.extension
    rw [Span.sliceAppend extension]
  simp only [locate, ByteQueue.unreadBytes, suffix]
  split
  all_goals rfl

theorem takeLineAhead {e : Draft} {outcome : Outcome Unit} {rest : Bytes}
    (read : r.draft.readRequestLine held = (e, outcome))
    (later : r.draft.readRequestLine (held ++ rest) = (e, outcome)) (within : outcome = .found () → e.Within held.length) :
    takeLine service r (held ++ rest) = (takeLine service r held).ahead rest := by
  simp only [takeLine, ByteQueue.unreadBytes, read, later]
  cases outcome with
  | more => rfl
  | failed fault => rfl
  | found =>
    have inside := (within rfl).target
    simp only [Span.sliceAppend inside.path]
    split
    · rfl
    · split
      · exact locateAhead inside.extension _ rest
      · rfl

theorem takeLineResumes (line : AtLine r held) : Resumes (takeLine service) r held := by
  refine ⟨fun more rest => ?_, fun ended rest => ?_⟩
  · obtain ⟨e, read, turn, _⟩ := takeLineMore line more
    obtain ⟨_, _, agree⟩ := Draft.resumeMore Draft.lineSteady line.inside line.known read
    rw [turn]
    exact takeLineLike (agree rest)
  · cases read : r.draft.readRequestLine held with
    | mk e outcome =>
      have stopped : (r.draft.readRequestLine held).2 ≠ .more := fun more => ended (by
        rw [read] at more
        simp only [takeLine, ByteQueue.unreadBytes, read, show outcome = .more from more])
      have later := Draft.resumeEnded Draft.lineSteady line.inside line.known stopped rest
      refine takeLineAhead read (later.trans read) fun found => ?_
      obtain ⟨short, inHead⟩ := Draft.readLineFound line.inside line.known (found ▸ read)
      exact inHead.within.mono (by simp [short])

theorem takeHeadersLike {e : Draft}
    (agree : Agree (r.draft.readHeaders service.hash service.limits held) (e.readHeaders service.hash service.limits held)) :
    (takeHeaders service r held).Like (takeHeaders service { r with draft := e } held) := by
  cases left : r.draft.readHeaders service.hash service.limits held with
  | mk x outcome =>
    cases right : e.readHeaders service.hash service.limits held with
    | mk y other =>
      rw [left, right] at agree
      obtain rfl : outcome = other := agree.outcome
      simp only [takeHeaders, ByteQueue.unreadBytes, left, right]
      cases outcome with
      | more =>
        obtain rfl : x = y := agree.exact (by simp)
        exact .refl _
      | found =>
        obtain rfl : x = y := agree.exact (by simp)
        exact .refl _
      | failed fault =>
        refine ⟨rfl, rfl, ?_, fun accepted => absurd rfl (accepted fault)⟩
        have draft : x.parked 0 = y.parked 0 := agree.draft
        simp only [parked, draft]

theorem takeHeadersAhead {e : Draft} {outcome : Outcome Unit} {rest : Bytes}
    (read : r.draft.readHeaders service.hash service.limits held = (e, outcome))
    (later : r.draft.readHeaders service.hash service.limits (held ++ rest) = (e, outcome))
    (within : outcome = .found () → e.cursor ≤ held.length ∧ e.Within held.length) :
    takeHeaders service r (held ++ rest) = (takeHeaders service r held).ahead rest := by
  simp only [takeHeaders, ByteQueue.unreadBytes, ByteQueue.consumeBytes, read, later]
  cases outcome with
  | more => rfl
  | failed fault => rfl
  | found =>
    obtain ⟨short, inside⟩ := within rfl
    simp only [Span.sliceAppend inside.target.whole, FieldSpans.valueAppend inside.fields,
      List.drop_append_of_le_length short]
    rfl

theorem takeHeadersResumes (headers : AtHeaders r held) : Resumes (takeHeaders service) r held := by
  have steady := Draft.headSteady service.hash service.limits
  refine ⟨fun more rest => ?_, fun ended rest => ?_⟩
  · obtain ⟨e, read, turn, _⟩ := takeHeadersMore headers more
    obtain ⟨_, _, agree⟩ := Draft.resumeMore steady headers.inside headers.known read
    rw [turn]
    exact takeHeadersLike (agree rest)
  · cases read : r.draft.readHeaders service.hash service.limits held with
    | mk e outcome =>
      have stopped : (r.draft.readHeaders service.hash service.limits held).2 ≠ .more := fun more => ended (by
        rw [read] at more
        simp only [takeHeaders, ByteQueue.unreadBytes, read, show outcome = .more from more])
      have later := Draft.resumeEnded steady headers.inside headers.known stopped rest
      refine takeHeadersAhead read (later.trans read) fun found => ?_
      obtain ⟨short, _, within, _⟩ := Draft.readHeadersFound headers.inside headers.known (found ▸ read)
      exact ⟨short, within.mono short⟩

theorem takeBodyResumes (body : AtBody r) : Resumes takeBody r held := by
  have unfilled := body.unfilled
  by_cases lacking : r.draft.bodyRead + held.length < r.draft.contentLength
  · have turn := takeBodyShort body.cursor lacking
    refine ⟨fun _ rest => ?_, fun ended => absurd (by rw [turn]) ended⟩
    rw [turn, List.nil_append]
    by_cases still : r.draft.bodyRead + (held ++ rest).length < r.draft.contentLength
    · have later : (r.counted held.length).draft.bodyRead + rest.length < r.draft.contentLength := by
        simp only [counted, List.length_append] at still ⊢
        omega
      rw [takeBodyShort body.cursor still, takeBodyShort rfl later, countedTwice, List.length_append]
      exact .refl _
    · obtain ⟨n, lacked⟩ := Nat.exists_eq_add_of_le (Nat.le_of_lt lacking)
      have there : n ≤ rest.length := by
        simp only [List.length_append] at still
        omega
      have first : (r.counted held.length).draft.bodyRead + n = r.draft.contentLength := by
        simp only [counted, lacked]
      have whole : r.draft.bodyRead + (held.length + n) = r.draft.contentLength := by omega
      rw [takeBodyWhole body.cursor (by simp [there]) whole, takeBodyWhole rfl there first,
        countedTwice, List.drop_append]
      simp only [Nat.add_sub_cancel_left, List.drop_of_length_le (Nat.le_add_right _ _), List.nil_append]
      exact .refl _
  · obtain ⟨n, lacked⟩ := Nat.exists_eq_add_of_le unfilled
    have there : n ≤ held.length := by omega
    have turn := takeBodyWhole body.cursor there lacked.symm
    refine ⟨fun more => by rw [turn] at more; contradiction, fun _ rest => ?_⟩
    rw [turn, takeBodyWhole body.cursor (Nat.le_trans there (by simp)) lacked.symm,
      List.drop_append_of_le_length there]
    rfl

theorem resumesThrough {stage : Request → Bytes → Turn Bytes} (stageResumes : Resumes stage r held)
    (here : ∀ rest, read service r (held ++ rest) = (stage r (held ++ rest)).andThen (read service))
    (again : (stage r held).outcome = .more → ∀ rest,
      read service (stage r held).request ((stage r held).buffer ++ rest) =
        (stage (stage r held).request ((stage r held).buffer ++ rest)).andThen (read service))
    (onward : (stage r held).outcome = .found () →
      Resumes (read service) (stage r held).request (stage r held).buffer) :
    Resumes (read service) r held := by
  have now : read service r held = (stage r held).andThen (read service) := by simpa using here []
  -- A stage that is through stays so, and the rest of the reading is the next stage's
  -- matter. A stage that is not through is the last one that reads.
  by_cases found : (stage r held).outcome = .found ()
  · have later : ∀ rest, stage r (held ++ rest) = (stage r held).ahead rest :=
      stageResumes.ended (by simp [found])
    have through := onward found
    have both : ∀ rest, read service r (held ++ rest) =
        { read service (stage r held).request ((stage r held).buffer ++ rest) with
          events := (stage r held).events ++
            (read service (stage r held).request ((stage r held).buffer ++ rest)).events } := by
      intro rest
      rw [here, later, Turn.andThenFound (by exact found)]
      rfl
    have alone := now.trans (Turn.andThenFound found _)
    refine ⟨fun more rest => ?_, fun ended rest => ?_⟩
    · rw [alone] at more ⊢
      have like := through.more more rest
      rw [both]
      exact ⟨like.outcome, like.buffer, like.request, like.exact⟩
    · rw [alone] at ended ⊢
      rw [both, through.ended ended rest]
      rfl
  · have alone := now.trans (Turn.andThenStopped found _)
    refine ⟨fun more rest => ?_, fun ended rest => ?_⟩
    · rw [alone] at more ⊢
      rw [here, again more]
      exact (stageResumes.more more rest).andThen _
    · rw [alone] at ended ⊢
      have later := stageResumes.ended ended rest
      rw [here, later, Turn.andThenStopped (by exact found)]

theorem bodyResumes (body : AtBody r) : Resumes (read service) r held := by
  have resumes : Resumes takeBody r held := takeBodyResumes body
  refine ⟨fun more rest => ?_, fun ended rest => ?_⟩
  · rw [readBody body] at more ⊢
    obtain ⟨_, turn, again⟩ := takeBodyMore body more
    rw [readBody body, readBody (by rw [turn]; exact again)]
    exact resumes.more more rest
  · rw [readBody body] at ended ⊢
    rw [readBody body]
    exact resumes.ended ended rest

theorem headersResumes (headers : AtHeaders r held) : Resumes (read service) r held := by
  have resumes : Resumes (takeHeaders service) r held := takeHeadersResumes headers
  refine resumesThrough resumes (fun rest => readHeaders (headers.append rest)) (fun more rest => ?_)
    fun found => bodyResumes (takeHeadersFound headers found).1
  obtain ⟨_, _, turn, _, again⟩ := takeHeadersMore headers more
  rw [turn]
  exact readHeaders (again.append rest)

theorem lineResumes (line : AtLine r held) : Resumes (read service) r held := by
  have resumes : Resumes (takeLine service) r held := takeLineResumes line
  refine resumesThrough resumes (fun rest => readLine (line.append rest)) (fun more rest => ?_)
    fun found => ?_
  · obtain ⟨_, _, turn, _, again⟩ := takeLineMore line more
    rw [turn]
    exact readLine (again.append rest)
  · obtain ⟨same, headers⟩ := takeLineFound line found
    rw [same]
    exact headersResumes headers

end Request
end StaticHttp
