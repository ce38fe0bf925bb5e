import StaticHttp.Proofs.Delimited
import StaticHttp.Proofs.Lifetimes
import StaticHttp.Proofs.LinePieces
import StaticHttp.Proofs.VersionText
/-! The version that an answer is told under: the one that was noted of all that had been
sent when the request came due. A request that is refused between the two numbers of its
version is answered as if a zero stood in the place of the second. -/
namespace StaticHttp

namespace Request
open Draft (LineWaits versionOf)
variable {service : Service} {r : Request} {sent held : Bytes}

theorem takeLineVersion (service : Service) (r : Request) (held : Bytes) :
    (takeLine service r held).request.draft.version = (r.draft.readRequestLine held).1.version := by
  simp only [takeLine, ByteQueue.unreadBytes]
  generalize r.draft.readRequestLine held = reading
  obtain ⟨d, outcome⟩ := reading
  split
  · rename_i e same
    cases same
    repeat' split
    · rfl
    · simp only [locate]
      split
      · rfl
      · rfl
      · rfl
    · rfl
  · rename_i e other same
    cases same
    rfl

theorem versionBeyond (version : Version) : Beyond fun r => r.draft.version = version where
  draft same holds := same.trans holds
  phase _ holds := holds
  rejected fault holds := by
    simp only [reject]
    split
    · exact holds
    · exact holds

theorem advanceVersion (service : Service) (r : Request) (held : Bytes) :
    (advance service r held).request.draft.version =
      if r.phase = .requestLine then (r.draft.readRequestLine held).1.version else r.draft.version := by
  refine (versionBeyond _).advance held (fun begun => ?_) fun line => ?_
  · rw [if_neg begun]
  · rw [if_pos line, takeLineVersion]

inductive Heard (r : Request) (sent : Bytes) : Prop where
  | line (phase : r.phase = .requestLine) {seen : Bytes} (waits : LineWaits r.draft seen) (grown : seen <+: sent)
  | behind (phase : r.phase ≠ .requestLine) {front : Bytes} (inside : front <+: sent) (ended : Byte.lf ∈ front)
      (word : front.length < Word.size) (version : r.draft.version = versionOf front)

theorem Heard.append (heard : Heard r sent) (rest : Bytes) : Heard r (sent ++ rest) := by
  cases heard with
  | line phase waits grown => exact .line phase waits (grown.trans (List.prefix_append _ _))
  | behind phase inside ended word version =>
    exact .behind phase (inside.trans (List.prefix_append _ _)) ended word version

theorem freshHeard (sent : Bytes) : Heard {} sent := .line rfl .fresh List.nil_prefix

theorem lineHeard (line : AtLine r held) {seen : Bytes} (waits : LineWaits r.draft seen) (grown : seen <+: held)
    (word : held.length < Word.size) :
    ((advance service r held).request.draft.version = versionOf held) ∧
      ((advance service r held).due = false → Heard (advance service r held).request held) := by
  obtain ⟨rest, rfl⟩ := grown
  have agree := waits.whole rest
  have version : (advance service r (seen ++ rest)).request.draft.version = versionOf (seen ++ rest) := by
    rw [advanceVersion, if_pos line.phase]
    exact (congrArg Draft.version (agree.draft.parked 0)).symm
  -- The version is settled; what is left is where a request stands that goes on waiting.
  refine ⟨version, fun waiting => ?_⟩
  have turn : LineTurn r (seen ++ rest) (takeLine service r (seen ++ rest)) := lineTurn line
  have call : advance service r (seen ++ rest) = settle service ((takeLine service r (seen ++ rest)).andThen fun r held =>
      (takeHeaders service r held).andThen takeBody) := by
    simp only [advance, read, line.phase]
  rw [call] at waiting version ⊢
  generalize takeLine service r (seen ++ rest) = t at turn waiting version
  cases turn with
  | more read =>
    rw [Turn.andThenStopped (by simp)] at waiting ⊢
    rw [(settleWaits waiting).2]
    exact .line line.phase (waits.again (List.prefix_append _ _) read).1 (List.prefix_refl _)
  | found read =>
    obtain ⟨text, _, after, front⟩ := Draft.foundLine (agree.outcome.trans (by rw [read]))
    have ended : Byte.lf ∈ seen ++ rest := by
      rw [← front]
      simp [LineText.text]
    refine .behind (begunBeyond.settle service ?_) (List.prefix_refl _) ended word version
    rw [Turn.andThenFound rfl]
    exact begunBeyond.onward service (by simp) _
  | failed =>
    rw [Turn.andThenStopped (by simp)] at waiting
    simp [settle] at waiting

inductive VersionTold (version : Version) (sent : Bytes) : Prop where
  | upTo {front rest : Bytes} (parts : sent = front ++ rest) (through : rest = [] ∨ Byte.lf ∈ front)
      (word : front.length < Word.size) (noted : version = versionOf front)

theorem VersionTold.oneZero {version : Version} (told : VersionTold version sent) :
    version = .http10 ↔ ComesToOneZero sent := by
  obtain ⟨parts, through, word, noted⟩ := told
  rw [noted, Draft.versionOneZero word, parts]
  rcases through with rfl | ended
  · rw [List.append_nil]
  · rw [oneZeroFront ended]

theorem VersionTold.line {version : Version} (told : VersionTold version sent) {line : LineText}
    (supported : line.Supported) (front : line.text <+: sent) :
    version = ⟨Decimal.number line.major, Decimal.number line.minor⟩ := by
  obtain ⟨parts, through, word, noted⟩ := told
  obtain ⟨rest, rfl⟩ := LineText.inFront (parts ▸ front) through
  obtain ⟨_, _, read⟩ := line.readSupported supported rest word
  rw [noted, versionOf, read]

theorem advanceHeard (pending : Pending r sent held) (heard : Heard r sent) (word : held.length < Word.size) :
    VersionTold (advance service r held).request.draft.version sent ∧
      ((advance service r held).due = false → Heard (advance service r held).request sent) := by
  cases heard with
  | line phase waits grown =>
    cases pending.waits with
    | line line whole =>
      subst whole
      obtain ⟨version, further⟩ := lineHeard line waits grown word
      exact ⟨.upTo (List.append_nil _).symm (.inl rfl) word version, further⟩
    | headers headers =>
      rw [headers.phase] at phase
      contradiction
    | body body =>
      rw [body.phase] at phase
      contradiction
  | @behind phase front inside ended small version =>
    have same : (advance service r held).request.draft.version = versionOf front := by
      rw [advanceVersion, if_neg phase, version]
    refine ⟨?_, fun _ => .behind (begunBeyond.advance held (fun _ => phase) fun line => absurd line phase) inside ended small same⟩
    obtain ⟨rest, rfl⟩ := inside
    exact .upTo rfl (.inr ended) small same

end Request

namespace Intake
open Request (Heard VersionTold)
variable {service : Service} {i : Intake}

theorem callHeard (waiting : Waiting service i) (sound : i.buffer.Sound)
    (heard : Heard i.request (i.released ++ i.buffer.unread)) :
    VersionTold (i.call service).request.draft.version ((i.call service).released ++ (i.call service).buffer.unread) ∧
      ((i.call service).due = false →
        Heard (i.call service).request ((i.call service).released ++ (i.call service).buffer.unread)) := by
  obtain ⟨request, due, _, _⟩ := callPlain service sound waiting.pending
  have word : i.buffer.unread.length < Word.size := by
    have bound := sound.word
    simp only [OffsetBuffer.unread, List.length_drop]
    omega
  rw [(waiting.called sound).2, request, due]
  exact Request.advanceHeard waiting.pending heard word

theorem performHeard {deed : Deed} (lives : Lives service i)
    (heard : i.due = false → Heard i.request (i.released ++ i.buffer.unread))
    (fits : (i.perform service deed).buffer.stored.length < Word.size) :
    (i.perform service deed).due = false →
      Heard (i.perform service deed).request
        ((i.perform service deed).released ++ (i.perform service deed).buffer.unread) := by
  cases deed with
  | push bytes =>
    intro waits
    obtain ⟨_, unread⟩ := pushSound lives.sound fits
    simp only [perform, unread, ← List.append_assoc]
    exact (heard waits).append bytes
  | call =>
    rcases lives.state with waiting | ended
    · exact (callHeard waiting lives.sound (heard waiting.due)).2
    · intro waits
      rw [perform, callDone ended.due ended.done, ended.due] at waits
      contradiction
  | renew => exact fun _ => Request.freshHeard i.buffer.unread

theorem performAllHeard {deeds : List Deed} (lives : Lives service i)
    (heard : i.due = false → Heard i.request (i.released ++ i.buffer.unread)) (contained : Contained service i deeds) :
    (deeds.foldl (perform service) i).due = false →
      Heard (deeds.foldl (perform service) i).request
        ((deeds.foldl (perform service) i).released ++ (deeds.foldl (perform service) i).buffer.unread) := by
  induction deeds generalizing i with
  | nil => exact heard
  | cons deed rest ih => exact ih (performLives lives contained.1) (performHeard lives heard contained.1) contained.2

theorem lateStill {later : List Deed} (due : i.due = true) (done : i.request.phase = .done) (still : .renew ∉ later) :
    (later.foldl (perform service) i).request = i.request := by
  induction later generalizing i with
  | nil => rfl
  | cons deed rest ih =>
    rw [List.mem_cons, not_or] at still
    cases deed with
    | push bytes => exact ih (i := i.push bytes) due done still.2
    | call =>
      rw [List.foldl_cons, perform, callDone due done]
      exact ih due done still.2
    | renew => exact absurd rfl still.1

end Intake

theorem Version.echoTold (v : Version) (rest : Bytes) :
    (ascii "HTTP/1.0" <+: v.echo ++ rest ↔ v = .http10) ∧ (ascii "HTTP/1.1" <+: v.echo ++ rest ↔ v ≠ .http10) := by
  have apart {left right : Bytes} (length : left.length = right.length) (differ : left ≠ right) :
      ¬ left <+: right ++ rest := fun front =>
    differ ((List.prefix_of_prefix_length_le front (List.prefix_append _ rest) (Nat.le_of_eq length)).eq_of_length length)
  by_cases same : v = .http10
  · rw [show v.echo = _ from if_pos same]
    exact ⟨iff_of_true (List.prefix_append _ _) same,
      iff_of_false (apart (by decide) (by decide)) fun different => different same⟩
  · rw [show v.echo = _ from if_neg same]
    exact ⟨iff_of_false (apart (by decide) (by decide)) same, iff_of_true (List.prefix_append _ _) same⟩

theorem Reply.composeEcho (service : Service) (now : Bytes) (age : Duration) (r : Request) :
    ∃ rest, (compose service now age r {}).output.unread = r.draft.version.echo ++ rest := by
  have version : (compose service now age r {}).head.version = r.draft.version := by
    simp only [compose, Head.forRequest, answeredSame]
  rw [(composeFresh service now age r).2, Head.render, Head.statusLine, version]
  simp only [List.append_assoc]
  exact ⟨_, rfl⟩

namespace Intake

/-- An answer is told under version 1.0 exactly where the line had come to a first number of one
and not to a second of one: a complete line is answered under its own version, and a line that
is refused behind its first number, or waits there for too long, as if it had a zero behind it. -/
theorem versionEchoed (service : Service) (deeds later : List Deed) (contained : Contained service {} deeds)
    (still : .renew ∉ later) (now : Bytes) (age : Duration) :
    let before := performAll service deeds
    let i := before.call service
    let sent := i.released ++ i.buffer.unread
    let written := (Reply.compose service now age (later.foldl (perform service) i).request {}).output.unread
    before.due = false → i.due = true →
      (ascii "HTTP/1.0" <+: written ↔ ComesToOneZero sent) ∧
      (ascii "HTTP/1.1" <+: written ↔ ¬ ComesToOneZero sent) ∧
      ∀ line : LineText, line.Supported → line.text <+: sent →
        (ascii "HTTP/1.0" <+: written ↔ Decimal.number line.major = 1 ∧ Decimal.number line.minor = 0) := by
  intro before i sent written waits due
  have lives : Lives service before := livesThrough contained
  have waiting : Waiting service before := lives.state.resolve_right fun ended => by simp [ended.due] at waits
  have heard := performAllHeard (freshLives service ⟨Nat.le_refl _, by decide⟩) (fun _ => Request.freshHeard _) contained
  obtain ⟨told, _⟩ := callHeard waiting lives.sound (heard waits)
  have done : i.request.phase = .done := by
    rcases (waiting.called lives.sound).1.state with again | ended
    · rw [again.due] at due
      contradiction
    · exact ended.done
  obtain ⟨rest, echoed⟩ := Reply.composeEcho service now age (later.foldl (perform service) i).request
  have same : written = i.request.draft.version.echo ++ rest := by
    rw [← lateStill due done still]
    exact echoed
  obtain ⟨zero, other⟩ := Version.echoTold i.request.draft.version rest
  rw [same, zero, other, ne_eq, told.oneZero]
  refine ⟨Iff.rfl, Iff.rfl, fun line supported front => ?_⟩
  rw [← told.oneZero, told.line supported front]
  simp [Version.http10]

theorem versionEchoedInParts :
    let service : Service := ⟨⟨[]⟩, { headLimit := 14 }, ChainTable.byteHash⟩
    let line := LineText.ofStart (RequestText.plain .get [] rfl).toLineStart (.inr ⟨0, rfl⟩) (.inl ⟨1, rfl⟩)
    let deeds : List Deed := [.push (ascii "GET / HTTP/1."), .call, .push (ascii "00\r\n\r\n")]
    let later : List Deed := [.push (ascii "GET"), .call]
    let others : List Deed := [.push (ascii "PUT /a HTTP/1.")]
    let i := (performAll service deeds).call service
    let j := (performAll service others).call service
    let answer := Reply.compose service (Calendar.httpDate 0) 0 (later.foldl (perform service) i).request {}
    let reply := Reply.compose service (Calendar.httpDate 0) 0 j.request {}
    Contained service {} deeds ∧ Contained service {} others ∧ line.text <+: i.released ++ i.buffer.unread ∧
      ascii "HTTP/1.0" <+: answer.output.unread ∧ j.request.status = .requestHeaderFieldsTooLarge ∧
      ascii "HTTP/1.0" <+: reply.output.unread := by
  intro service line deeds later others i j answer reply
  have contained : Contained service {} deeds ∧ Contained service {} others := by decide +kernel
  have waits : (performAll service deeds).due = false ∧ (performAll service others).due = false := by decide +kernel
  have due : i.due = true ∧ j.due = true := by decide +kernel
  have crowded : j.request.status = .requestHeaderFieldsTooLarge := by decide +kernel
  have front : line.text <+: i.released ++ i.buffer.unread := ⟨[Byte.cr, Byte.lf], by decide +kernel⟩
  have supported : line.Supported := ⟨.inr ⟨0, rfl⟩, .inl ⟨1, rfl⟩⟩
  have halted : ComesToOneZero (j.released ++ j.buffer.unread) := by
    have sent : j.released ++ j.buffer.unread =
        ((RequestText.plain .put (ascii "a") rfl).toLineStart).text ++ ([Version.one] ++ [Byte.dot]) := by decide +kernel
    rw [sent]
    refine .ofRest _ ⟨0, rfl⟩ fun minor second further => ?_
    obtain ⟨b, others, rfl, _⟩ := Version.oneStarts second
    simp at further
  obtain ⟨_, _, own⟩ := versionEchoed service deeds later contained.1 (by decide) (Calendar.httpDate 0) 0 waits.1 due.1
  obtain ⟨zero, _⟩ := versionEchoed service others [] contained.2 List.not_mem_nil
    (Calendar.httpDate 0) 0 waits.2 due.2
  exact ⟨contained.1, contained.2, front, (own line supported front).mpr (by decide), crowded, zero.mpr halted⟩

/- A line that is refused at its second number, and answered as if it had said 1.0. -/
theorem halfVersionEchoed :
    let service : Service := ⟨⟨[(ascii "index.html", .file (ascii "hi"))]⟩, {}, ChainTable.byteHash⟩
    let sent := ascii "GET / HTTP/1.2\r\n\r\n"
    let before := performAll service [.push sent]
    let i := before.call service
    Contained service {} [.push sent] ∧ before.due = false ∧ i.due = true ∧ i.released ++ i.buffer.unread = sent ∧
      (({} : Draft).readRequestLine sent).2 = .failed .unsupportedVersion ∧
      (¬ ∃ line : LineText, line.Supported ∧ line.text <+: sent) ∧
      ascii "HTTP/1.0 505" <+: (Reply.compose service (Calendar.httpDate 0) 0 i.request {}).output.unread := by
  intro service sent before i
  have word : sent.length < Word.size := by decide +kernel
  have refused : (({} : Draft).readRequestLine sent).2 = .failed .unsupportedVersion := by decide +kernel
  refine ⟨by decide +kernel, by decide +kernel, by decide +kernel, by decide +kernel, refused, ?_, by decide +kernel⟩
  rintro ⟨line, supported, rest, parts⟩
  obtain ⟨_, _, read⟩ := line.readSupported supported rest (parts ▸ word)
  rw [parts] at read
  exact absurd (refused.symm.trans (congrArg Prod.snd read)) (by simp)

end Intake
end StaticHttp
