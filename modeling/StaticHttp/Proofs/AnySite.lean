import StaticHttp.Proofs.Lifetimes
/-! Reading does not depend on what the site holds. Two services with the same limits
read the same bytes in step, whatever their files are: a file that is there for one
and missing for the other shows in the status alone, and only once the body is through. -/
namespace StaticHttp

namespace Site

def Looked (found : Except Fault Opened) : Prop := (∃ opened, found = .ok opened) ∨ found = .error .notFound

theorem findSides (left right : Site) (path : Bytes) :
    left.find path = .error .invalidUrl ∧ right.find path = .error .invalidUrl ∨
      Looked (left.find path) ∧ Looked (right.find path) := by
  have looked (site : Site) (valid : Utf8.valid path = true) : Looked (site.find path) := by
    cases found : site.find path with
    | ok opened => exact .inl ⟨opened, rfl⟩
    | error fault =>
      obtain rfl | rfl := findFault found
      · exact .inr rfl
      · exact absurd (valid.symm.trans (findInvalid.mp found)) (by decide)
  cases valid : Utf8.valid path with
  | true => exact .inr ⟨looked left valid, looked right valid⟩
  | false => exact .inl ⟨findInvalid.mpr valid, findInvalid.mpr valid⟩

end Site

namespace Status

def SameButMissing (s t : Status) : Prop := s = t ∨ s = .ok ∧ t = .notFound ∨ s = .notFound ∧ t = .ok

theorem sameBut {s t : Status} (left : s = .ok ∨ s = .notFound) (right : t = .ok ∨ t = .notFound) :
    SameButMissing s t := by
  rcases left with rfl | rfl
  · rcases right with rfl | rfl
    · exact .inl rfl
    · exact .inr (.inl ⟨rfl, rfl⟩)
  · rcases right with rfl | rfl
    · exact .inr (.inr ⟨rfl, rfl⟩)
    · exact .inl rfl

end Status

namespace Request

structure InStep (r q : Request) : Prop where
  draft : r.draft = q.draft
  phase : r.phase = q.phase
  untold : r.phase ≠ .done → r.status = .ok ∧ q.status = .ok
  status : r.status.SameButMissing q.status

end Request

structure Turn.InStep {β : Type} (t u : Turn β) : Prop where
  request : t.request.InStep u.request
  buffer : t.buffer = u.buffer
  outcome : t.outcome = u.outcome

theorem Turn.InStep.andThen {β : Type} {t u : Turn β} {next other : Request → β → Turn β} (step : t.InStep u)
    (onward : t.outcome = .found () → (next t.request t.buffer).InStep (other u.request t.buffer)) :
    (t.andThen next).InStep (u.andThen other) := by
  have outcome := step.outcome
  cases ended : t.outcome with
  | found result =>
    rw [ended] at outcome
    have further := onward ended
    simp only [Turn.andThen, ended, ← outcome, ← step.buffer]
    exact ⟨further.request, further.buffer, further.outcome⟩
  | more =>
    rw [ended] at outcome
    simp only [Turn.andThen, ended, ← outcome]
    exact step
  | failed fault =>
    rw [ended] at outcome
    simp only [Turn.andThen, ended, ← outcome]
    exact step

structure Progress.InStep {β : Type} (p s : Progress β) : Prop where
  request : p.request.InStep s.request
  buffer : p.buffer = s.buffer
  due : p.due = s.due

structure Service.SameRules (left right : Service) : Prop where
  limits : left.limits = right.limits
  hash : left.hash = right.hash

namespace Request
variable {β : Type} [ByteQueue β] {left right : Service} {r q : Request} {buffer : β}

theorem freshInStep : InStep {} {} := ⟨rfl, rfl, fun _ => ⟨rfl, rfl⟩, .inl rfl⟩

theorem InStep.drafted (step : InStep r q) (d : Draft) : InStep { r with draft := d } { q with draft := d } :=
  ⟨rfl, step.phase, step.untold, step.status⟩

theorem InStep.rejected (step : InStep r q) (fault : Fault) : InStep (r.reject fault) (q.reject fault) := by
  refine ⟨?_, rfl, fun going => absurd rfl going, .inl rfl⟩
  simp only [reject, withoutReuse, step.draft]
  split
  · rfl
  · exact step.draft

theorem locateInStep (step : InStep r q) (going : r.phase ≠ .done) (path : Bytes) :
    (locate left r buffer path).InStep (locate right q buffer path) := by
  obtain ⟨here, there⟩ := step.untold going
  have headers {f g : Request} (draft : f.draft = g.draft) (phases : f.phase = .headers ∧ g.phase = .headers)
      (statuses : f.status = .ok ∧ g.status = .ok) : InStep f g :=
    ⟨draft, phases.1.trans phases.2.symm, fun _ => statuses, .inl (statuses.1.trans statuses.2.symm)⟩
  rcases Site.findSides left.site right.site path with ⟨one, other⟩ | ⟨one, other⟩
  · simp only [locate, one, other]
    exact ⟨step, rfl, rfl⟩
  · rcases one with ⟨_, one⟩ | one
    all_goals rcases other with ⟨_, other⟩ | other
    all_goals
      simp only [locate, one, other]
      exact ⟨headers step.draft ⟨rfl, rfl⟩ ⟨here, there⟩, rfl, rfl⟩

theorem takeLineInStep (step : InStep r q) (going : r.phase ≠ .done) :
    (takeLine left r buffer).InStep (takeLine right q buffer) := by
  simp only [takeLine, ← step.draft]
  split
  · rename_i draft _
    split
    · exact ⟨step.drafted draft, rfl, rfl⟩
    · have read := step.drafted { draft with keepAlive := draft.version.keepsAlive }
      split
      · exact locateInStep read going _
      · exact ⟨read, rfl, rfl⟩
  · exact ⟨step.drafted _, rfl, rfl⟩

theorem takeHeadersInStep (rules : left.SameRules right) (step : InStep r q) (going : r.phase ≠ .done) :
    (takeHeaders left r buffer).InStep (takeHeaders right q buffer) := by
  simp only [takeHeaders, ← step.draft, ← rules.limits, ← rules.hash]
  split
  · exact ⟨⟨rfl, rfl, fun _ => step.untold going, step.status⟩, rfl, rfl⟩
  · exact ⟨step.drafted _, rfl, rfl⟩

theorem concludeInStep (step : InStep r q) (going : r.phase ≠ .done) : InStep r.conclude.1 q.conclude.1 := by
  obtain ⟨here, there⟩ := step.untold going
  obtain ⟨kept, ended⟩ := concludeDraft r
  obtain ⟨same, closed⟩ := concludeDraft q
  exact ⟨by rw [kept, same, step.draft], ended.trans closed.symm, fun further => absurd ended further,
    Status.sameBut (concludeStatus r here) (concludeStatus q there)⟩

theorem takeBodyInStep (step : InStep r q) (going : r.phase ≠ .done) :
    (takeBody r buffer).InStep (takeBody q buffer) := by
  have read := step.drafted { (r.draft.readBody (ByteQueue.unread buffer)).1 with cursor := 0 }
  simp only [takeBody, ← step.draft]
  split
  · exact ⟨concludeInStep read going, rfl, rfl⟩
  · exact ⟨read, rfl, rfl⟩

theorem headersOnInStep (rules : left.SameRules right) (step : InStep r q) (going : r.phase ≠ .done) :
    ((takeHeaders left r buffer).andThen takeBody).InStep ((takeHeaders right q buffer).andThen takeBody) := by
  have taken : (takeHeaders left r buffer).InStep (takeHeaders right q buffer) := takeHeadersInStep rules step going
  refine taken.andThen fun found => takeBodyInStep taken.request ?_
  simp only [takeHeaders] at found ⊢
  split
  · simp
  · exact going

theorem readInStep (rules : left.SameRules right) (step : InStep r q) :
    (read left r buffer).InStep (read right q buffer) := by
  simp only [read, ← step.phase]
  cases phase : r.phase with
  | requestLine =>
    have going : r.phase ≠ .done := by simp [phase]
    have taken : (takeLine left r buffer).InStep (takeLine right q buffer) := takeLineInStep step going
    refine taken.andThen fun found => headersOnInStep rules taken.request ?_
    simp only [takeLine, locate] at found ⊢
    repeat' split
    all_goals simp [phase]
  | headers => exact headersOnInStep rules step (by simp [phase])
  | body => exact takeBodyInStep step (by simp [phase])
  | done => exact ⟨step, rfl, rfl⟩

theorem settleInStep (rules : left.SameRules right) {t u : Turn β} (step : t.InStep u) :
    (settle left t).InStep (settle right u) := by
  have outcome := step.outcome
  have head : u.request.inHead = t.request.inHead := by simp only [inHead, step.request.phase]
  cases ended : t.outcome with
  | found result =>
    simp only [settle, ended, ← outcome]
    exact ⟨step.request, step.buffer, rfl⟩
  | failed fault =>
    simp only [settle, ended, ← outcome]
    exact ⟨step.request.rejected fault, step.buffer, rfl⟩
  | more =>
    simp only [settle, ended, ← outcome, head, ← rules.limits, ← step.buffer]
    split
    · exact ⟨step.request.rejected .headTooLarge, rfl, rfl⟩
    · exact ⟨step.request, rfl, rfl⟩

theorem advanceInStep (rules : left.SameRules right) (step : InStep r q) (buffer : β) :
    (advance left r buffer).InStep (advance right q buffer) :=
  settleInStep rules (readInStep rules step)

end Request

namespace Intake

structure InStep (i j : Intake) : Prop where
  request : i.request.InStep j.request
  buffer : i.buffer = j.buffer
  due : i.due = j.due
  released : i.released = j.released

variable {left right : Service} {i j : Intake}

theorem performInStep (rules : left.SameRules right) (step : InStep i j) (deed : Deed) :
    InStep (i.perform left deed) (j.perform right deed) := by
  cases deed with
  | push bytes => exact ⟨step.request, by simp only [perform, push, step.buffer], step.due, step.released⟩
  | call =>
    have called := Request.advanceInStep rules step.request i.buffer
    simp only [perform, call, ← step.buffer]
    exact ⟨called.request, called.buffer, called.due, by simp only [step.released, called.buffer]⟩
  | renew => exact ⟨Request.freshInStep, step.buffer, rfl, rfl⟩

theorem performAllInStep (rules : left.SameRules right) (step : InStep i j) (deeds : List Deed) :
    InStep (deeds.foldl (perform left) i) (deeds.foldl (perform right) j) := by
  induction deeds generalizing i j with
  | nil => exact step
  | cons deed rest ih => exact ih (performInStep rules step deed)

/-- Two services that differ in their sites, after the same deliveries, calls and fresh
starts: what is asked for, what is released and what has been read is the same. The statuses
differ at most in that one service has the file and the other has not. -/
theorem siteUnseen (left right : Site) (limits : Limits) (hash : Bytes → Nat) (deeds : List Deed) :
    let i := performAll ⟨left, limits, hash⟩ deeds
    let j := performAll ⟨right, limits, hash⟩ deeds
    i.due = j.due ∧ i.buffer = j.buffer ∧ i.released = j.released ∧
      i.request.phase = j.request.phase ∧ i.request.draft = j.request.draft ∧
      (i.request.phase ≠ .done → i.request.status = j.request.status) ∧
      i.request.status.SameButMissing j.request.status := by
  intro i j
  have fresh : InStep {} {} := ⟨Request.freshInStep, rfl, rfl, rfl⟩
  have rules : Service.SameRules ⟨left, limits, hash⟩ ⟨right, limits, hash⟩ := ⟨rfl, rfl⟩
  have step : InStep i j := performAllInStep rules fresh deeds
  refine ⟨step.due, step.buffer, step.released, step.request.phase, step.request.draft, fun going => ?_,
    step.request.status⟩
  obtain ⟨here, there⟩ := step.request.untold going
  exact here.trans there.symm

example :
    let deeds : List Deed := [.push (ascii "POST /a HTTP/1.1\r\nContent-Length: 2\r\n\r\nb"), .call, .push (ascii "cGET"), .call]
    let i := performAll ⟨⟨[(ascii "a", .file [])]⟩, {}, ChainTable.byteHash⟩ deeds
    let j := performAll ⟨⟨[]⟩, {}, ChainTable.byteHash⟩ deeds
    i.due = true ∧ i.buffer.unread = ascii "GET" ∧ i.request.status = .ok ∧ j.request.status = .notFound := by
  decide +kernel

end Intake
end StaticHttp
