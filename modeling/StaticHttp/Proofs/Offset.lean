import StaticHttp.Proofs.Ledger
/-! Reading from a buffer with an offset comes to what reading from its unread
bytes comes to, as long as no more is given up than there is and no sum of the
offset wraps. A request that waits never asks for more. -/
namespace StaticHttp

namespace OffsetBuffer

@[simp] theorem queueUnread (b : OffsetBuffer) : ByteQueue.unread b = b.unread := rfl

@[simp] theorem queueConsume (b : OffsetBuffer) (n : Nat) : ByteQueue.consume b n = b.consume n := rfl

structure Sound (b : OffsetBuffer) : Prop where
  inside : b.start ≤ b.stored.length
  word : b.stored.length < Word.size

theorem storedConsume (b : OffsetBuffer) (n : Nat) : (b.consume n).stored.length ≤ b.stored.length := by
  simp only [OffsetBuffer.consume, advanceTo]
  split
  · simp [clear]
  · exact Nat.le_refl _

theorem Sound.consume {b : OffsetBuffer} (sound : b.Sound) (n : Nat) : (b.consume n).Sound :=
  ⟨b.consumeInside n, Nat.lt_of_le_of_lt (b.storedConsume n) sound.word⟩

theorem Sound.unreadConsume {b : OffsetBuffer} {n : Nat} (sound : b.Sound) (there : n ≤ b.unread.length) :
    (b.consume n).unread = b.unread.drop n := by
  have inside := sound.inside
  have word := sound.word
  rw [unreadLength, size] at there
  exact OffsetBuffer.unreadConsume (by omega)

theorem fillSound {b : OffsetBuffer} {source : Bytes} {chunk : Nat}
    (fits : b.size + (source.take chunk).length < Word.size) : (b.fill source chunk).1.Sound := by
  refine ⟨Nat.zero_le _, Nat.lt_of_le_of_lt ?_ fits⟩
  simp only [fill, land]
  exact List.length_take_le _ _

end OffsetBuffer

def Turn.plain (t : Turn OffsetBuffer) : Turn Bytes := ⟨t.request, t.buffer.unread, t.outcome, t.events⟩

def Progress.plain (p : Progress OffsetBuffer) : Progress Bytes := ⟨p.request, p.buffer.unread, p.due, p.events⟩

structure OffsetBuffer.From (before after : OffsetBuffer) : Prop where
  sound : after.Sound
  stored : after.stored.length ≤ before.stored.length

structure Turn.Plain (before : OffsetBuffer) (t : Turn OffsetBuffer) (u : Turn Bytes) : Prop where
  same : t.plain = u
  out : before.From t.buffer

namespace OffsetBuffer

theorem Sound.same {b : OffsetBuffer} (sound : b.Sound) : b.From b := ⟨sound, Nat.le_refl _⟩

theorem Sound.consumed {b : OffsetBuffer} (sound : b.Sound) (n : Nat) : b.From (b.consume n) :=
  ⟨sound.consume n, b.storedConsume n⟩

theorem From.trans {a b c : OffsetBuffer} (first : a.From b) (second : b.From c) : a.From c :=
  ⟨second.sound, Nat.le_trans second.stored first.stored⟩

end OffsetBuffer

theorem Turn.Plain.andThen {before : OffsetBuffer} {t : Turn OffsetBuffer} {u : Turn Bytes}
    {next : Request → OffsetBuffer → Turn OffsetBuffer} {plainly : Request → Bytes → Turn Bytes}
    (plain : t.Plain before u)
    (onward : u.outcome = .found () → (next t.request t.buffer).Plain t.buffer (plainly u.request u.buffer)) :
    (t.andThen next).Plain before (u.andThen plainly) := by
  obtain ⟨rfl, out⟩ := plain
  cases ended : t.outcome with
  | found =>
    have through : (next t.request t.buffer).Plain t.buffer (plainly t.request t.buffer.unread) := onward ended
    simp only [Turn.andThen, ended, Turn.plain]
    exact ⟨by rw [← through.same]; rfl, out.trans through.out⟩
  | more =>
    simp only [Turn.andThen, ended, Turn.plain]
    exact ⟨by rw [← ended]; rfl, out⟩
  | failed fault =>
    simp only [Turn.andThen, ended, Turn.plain]
    exact ⟨by rw [← ended]; rfl, out⟩

namespace Request
open OffsetBuffer (Sound)
variable {service : Service} {r : Request} {b : OffsetBuffer} {sent : Bytes}

theorem linePlain (sound : b.Sound) : (takeLine service r b).Plain b (takeLine service r b.unread) := by
  simp only [takeLine, OffsetBuffer.queueUnread, ByteQueue.unreadBytes]
  split
  · split
    · exact ⟨rfl, sound.same⟩
    · split
      · simp only [locate, OffsetBuffer.queueUnread, ByteQueue.unreadBytes]
        split
        all_goals exact ⟨rfl, sound.same⟩
      · exact ⟨rfl, sound.same⟩
  · exact ⟨rfl, sound.same⟩

theorem headersPlain (sound : b.Sound) (headers : AtHeaders r b.unread) :
    (takeHeaders service r b).Plain b (takeHeaders service r b.unread) := by
  simp only [takeHeaders, OffsetBuffer.queueUnread, OffsetBuffer.queueConsume, ByteQueue.unreadBytes,
    ByteQueue.consumeBytes]
  split
  · rename_i d read
    obtain ⟨short, _⟩ := Draft.readHeadersFound headers.inside headers.known read
    refine ⟨?_, sound.consumed _⟩
    simp only [Turn.plain, sound.unreadConsume short]
  · exact ⟨rfl, sound.same⟩

theorem bodyPlain (sound : b.Sound) (body : AtBody r) : (takeBody r b).Plain b (takeBody r b.unread) := by
  have short : (r.draft.readBody b.unread).1.cursor ≤ b.unread.length := by
    simp only [Draft.readBody, body.cursor]
    omega
  simp only [takeBody, OffsetBuffer.queueUnread, OffsetBuffer.queueConsume, ByteQueue.unreadBytes,
    ByteQueue.consumeBytes]
  split
  all_goals
    refine ⟨?_, sound.consumed _⟩
    simp only [Turn.plain, sound.unreadConsume short]

theorem headersOnPlain (sound : b.Sound) (headers : AtHeaders r b.unread) :
    ((takeHeaders service r b).andThen takeBody).Plain b ((takeHeaders service r b.unread).andThen takeBody) := by
  have plain : (takeHeaders service r b).Plain b (takeHeaders service r b.unread) := headersPlain sound headers
  refine plain.andThen fun found => ?_
  obtain ⟨body, _⟩ := takeHeadersFound headers found
  rw [← plain.same] at body ⊢
  exact bodyPlain plain.out.sound body

theorem readPlain (sound : b.Sound) (pending : Pending r sent b.unread) :
    (read service r b).Plain b (read service r b.unread) := by
  cases pending.waits with
  | line line =>
    simp only [read, line.phase]
    have plain : (takeLine service r b).Plain b (takeLine service r b.unread) := linePlain sound
    refine plain.andThen fun found => ?_
    obtain ⟨same, headers⟩ := takeLineFound line found
    have here : AtHeaders (takeLine service r b).plain.request (takeLine service r b).plain.buffer := by
      rw [plain.same, same]
      exact headers
    rw [← plain.same]
    exact headersOnPlain plain.out.sound here
  | headers headers =>
    simp only [read, headers.phase]
    exact headersOnPlain sound headers
  | body body _ _ =>
    simp only [read, body.phase]
    exact bodyPlain sound body

theorem settlePlain (service : Service) (t : Turn OffsetBuffer) :
    (settle service t).plain = settle service t.plain ∧ (settle service t).buffer = t.buffer := by
  simp only [settle, Turn.plain, OffsetBuffer.queueUnread, ByteQueue.unreadBytes]
  split
  · exact ⟨rfl, rfl⟩
  · exact ⟨rfl, rfl⟩
  · split
    · rename_i crowded
      exact ⟨(if_pos crowded).symm, rfl⟩
    · rename_i roomy
      exact ⟨(if_neg roomy).symm, rfl⟩

theorem advancePlain (service : Service) (sound : b.Sound) (pending : Pending r sent b.unread) :
    (advance service r b).plain = advance service r b.unread ∧ b.From (advance service r b).buffer := by
  have plain : (read service r b).Plain b (read service r b.unread) := readPlain sound pending
  obtain ⟨same, buffer⟩ := settlePlain service (read service r b)
  refine ⟨?_, ?_⟩
  · rw [advance, same, plain.same, advance]
  · rw [advance, buffer]
    exact plain.out

end Request
end StaticHttp
