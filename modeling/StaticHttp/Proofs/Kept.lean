import StaticHttp.Request
import StaticHttp.Proofs.Headers
/-! What reading keeps of a request, whatever the bytes are. Reading changes a request
only in a few ways, so a property is kept by every call that each of these keeps. What
a request line notes is apart: behind it nothing is noted any more. -/
namespace StaticHttp.Request

structure Lasting (P : Request → Prop) : Prop where
  draft : ∀ {r : Request} (d : Draft), P r → P { r with draft := d }
  phase : ∀ {r : Request} {phase : Phase}, phase ≠ .requestLine → P r → P { r with phase := phase }
  rejected : ∀ {r : Request} (fault : Fault), P r → P (r.reject fault)

structure Beyond (P : Request → Prop) : Prop where
  draft : ∀ {r : Request} {d : Draft}, d.version = r.draft.version → P r → P { r with draft := d }
  phase : ∀ {r : Request} {phase : Phase}, phase ≠ .requestLine → P r → P { r with phase := phase }
  rejected : ∀ {r : Request} (fault : Fault), P r → P (r.reject fault)

structure Kept (service : Service) (P : Request → Prop) : Prop extends Lasting P where
  missing : ∀ {r : Request}, P r → P { r with missing := true }
  found : ∀ {r : Request} {path : Bytes} {opened : Opened} (extension : Bytes), service.site.find path = .ok opened →
    P r → P { r with resource := some opened, contentType := Mime.ofExtension service.hash extension }

variable {service : Service} {P : Request → Prop} {r : Request} {β : Type}

theorem Lasting.beyond (lasting : Lasting P) : Beyond P := ⟨fun _ => lasting.draft _, lasting.phase, lasting.rejected⟩

namespace Beyond

theorem andThen {t : Turn β} {next : Request → β → Turn β} (first : P t.request)
    (second : ∀ r buffer, P r → P (next r buffer).request) : P (t.andThen next).request := by
  unfold Turn.andThen
  split
  · exact second _ _ first
  · exact first

variable [ByteQueue β]

theorem takeHeaders (beyond : Beyond P) (service : Service) (holds : P r) (buffer : β) :
    P (Request.takeHeaders service r buffer).request := by
  simp only [Request.takeHeaders]
  split
  · rename_i draft read
    have version : draft.version = r.draft.version := (Draft.readHeadersAside read).version
    have noted : P { r with draft := { draft with cursor := 0 } } := beyond.draft version holds
    exact beyond.phase (by decide) noted
  · rename_i draft _ _ read
    have version : draft.version = r.draft.version := (Draft.readHeadersAside read).version
    exact beyond.draft version holds

theorem conclude (beyond : Beyond P) (holds : P r) : P r.conclude.1 := by
  unfold Request.conclude
  split
  · exact beyond.rejected .notFound (beyond.phase (by decide) holds)
  · exact beyond.phase (by decide) holds

theorem takeBody (beyond : Beyond P) (holds : P r) (buffer : β) : P (Request.takeBody r buffer).request := by
  simp only [Request.takeBody]
  split
  · exact beyond.conclude (beyond.draft rfl holds)
  · exact beyond.draft rfl holds

theorem onward (beyond : Beyond P) (service : Service) (holds : P r) (buffer : β) :
    P ((Request.takeHeaders service r buffer).andThen Request.takeBody).request :=
  andThen (beyond.takeHeaders service holds buffer) fun _ buffer holds => beyond.takeBody holds buffer

theorem settle (beyond : Beyond P) (service : Service) {t : Turn β} (holds : P t.request) :
    P (Request.settle service t).request := by
  simp only [Request.settle]
  repeat' split
  · exact holds
  · exact beyond.rejected _ holds
  · exact beyond.rejected _ holds
  · exact holds

theorem read (beyond : Beyond P) (buffer : β) (before : r.phase ≠ .requestLine → P r)
    (line : r.phase = .requestLine → P (Request.takeLine service r buffer).request) :
    P (Request.read service r buffer).request := by
  cases phase : r.phase with
  | requestLine =>
    simp only [Request.read, phase]
    exact andThen (line phase) fun _ buffer holds => beyond.onward service holds buffer
  | headers =>
    simp only [Request.read, phase]
    exact beyond.onward service (before (by simp [phase])) buffer
  | body =>
    simp only [Request.read, phase]
    exact beyond.takeBody (before (by simp [phase])) buffer
  | done =>
    simp only [Request.read, phase]
    exact before (by simp [phase])

theorem advance (beyond : Beyond P) (buffer : β) (before : r.phase ≠ .requestLine → P r)
    (line : r.phase = .requestLine → P (Request.takeLine service r buffer).request) :
    P (Request.advance service r buffer).request :=
  beyond.settle service (beyond.read buffer before line)

end Beyond

theorem begunBeyond : Beyond fun r => r.phase ≠ .requestLine where
  draft _ begun := begun
  phase begun _ := begun
  rejected _ _ := by
    intro line
    contradiction

namespace Kept
variable [ByteQueue β]

theorem locate (kept : Kept service P) (holds : P r) (buffer : β) (path : Bytes) :
    P (Request.locate service r buffer path).request := by
  simp only [Request.locate]
  split
  · rename_i opened found
    exact kept.phase (by decide) (kept.found _ found holds)
  · exact kept.phase (by decide) (kept.missing holds)
  · exact holds

theorem takeLine (kept : Kept service P) (holds : P r) (buffer : β) :
    P (Request.takeLine service r buffer).request := by
  simp only [Request.takeLine]
  split
  · split
    · exact kept.draft _ holds
    · split
      · exact kept.locate (kept.draft _ holds) buffer _
      · exact kept.draft _ holds
  · exact kept.draft _ holds

theorem advance (kept : Kept service P) (holds : P r) (buffer : β) :
    P (Request.advance service r buffer).request :=
  kept.toLasting.beyond.advance buffer (fun _ => holds) fun _ => kept.takeLine holds buffer

end Kept
end StaticHttp.Request
