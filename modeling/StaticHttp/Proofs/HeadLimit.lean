import StaticHttp.Proofs.HeadMeaning
import StaticHttp.Proofs.Parts
/-! When a head is held to its limit. The limit is looked at whenever a delivery ends
inside the head, and at no other time: a head that comes through between two looks is
accepted whatever its length. -/
namespace StaticHttp

namespace HeadEnd

theorem openShorter {head text early : Bytes} (isHead : IsHead head) (inside : head <+: text) (front : early <+: text) :
    Open early ↔ early.length < head.length := by
  constructor
  · intro noBlank
    refine Nat.lt_of_not_le fun longer => ?_
    exact noBlank head (List.prefix_of_prefix_length_le inside front longer) isHead.closed
  · intro shorter before earlier closed
    have within : before <+: head := List.prefix_of_prefix_length_le (earlier.trans front) inside
      (Nat.le_trans earlier.length_le (Nat.le_of_lt shorter))
    have same := isHead.first before within closed
    have short := earlier.length_le
    rw [same] at short
    omega

end HeadEnd

namespace Intake
open Request (Pending Crowded)
open HeadEnd (IsHead Open)
variable {service : Service} {i : Intake} {sent : Bytes}

def Accepted (i : Intake) : Prop := i.due = true ∧ (i.request.status = .ok ∨ i.request.status = .notFound)

instance (i : Intake) : Decidable i.Accepted := by unfold Accepted; infer_instance

def Short (limit : Nat) (sent : Bytes) (deliveries : List Bytes) : Prop :=
  ∀ early, early <+: deliveries → early ≠ [] → Open (sent ++ early.flatten) → (sent ++ early.flatten).length < limit

theorem Short.rest {limit : Nat} {bytes : Bytes} {rest : List Bytes} (short : Short limit sent (bytes :: rest)) :
    Short limit (sent ++ bytes) rest := by
  intro early front _ noBlank
  rw [List.append_assoc, ← List.flatten_cons] at noBlank ⊢
  exact short (bytes :: early) (List.cons_prefix_cons.mpr ⟨rfl, front⟩) (List.cons_ne_nil _ _) noBlank

theorem shortCons {limit : Nat} {bytes : Bytes} {rest : List Bytes}
    (now : Open (sent ++ bytes) → (sent ++ bytes).length < limit) (later : Short limit (sent ++ bytes) rest) :
    Short limit sent (bytes :: rest) := by
  intro early front some noBlank
  cases early with
  | nil => contradiction
  | cons first early =>
    obtain ⟨rfl, further⟩ := List.cons_prefix_cons.mp front
    rw [List.flatten_cons, ← List.append_assoc] at noBlank ⊢
    cases early with
    | nil => simpa using now (by simpa using noBlank)
    | cons second early => exact later (second :: early) further (List.cons_ne_nil _ _) noBlank

theorem shortCalm {bytes : Bytes} (balance : Balance service i sent) (waits : i.due = false)
    (fits : (i.push bytes).buffer.stored.length < Word.size)
    (short : Open (sent ++ bytes) → (sent ++ bytes).length < service.limits.headLimit) :
    ¬ Crowded service i.request (i.push bytes).buffer := by
  intro long
  obtain ⟨sound, unread, here⟩ := balance.pushed waits fits
  have plain : Crowded service i.request (i.push bytes).buffer.unread := (crowdedPlain service sound here).mp long
  have few := short (Request.crowdedOpen here plain)
  obtain ⟨_, _, many⟩ := plain
  have held := (Request.readSuffix service i.request (i.push bytes).buffer.unread).length_le
  have all : (i.push bytes).buffer.unread.length ≤ (sent ++ bytes).length := by
    rw [unread, ← balance.total]
    simp
  simp only [ByteQueue.unreadBytes] at many
  omega

theorem shortAllCalm {deliveries : List Bytes} (balance : Balance service i sent)
    (fits : i.buffer.stored.length + deliveries.flatten.length < Word.size)
    (short : Short service.limits.headLimit sent deliveries) : Calm service i deliveries := by
  induction deliveries generalizing i sent with
  | nil => trivial
  | cons bytes rest ih =>
    obtain ⟨now, behind⟩ := offerFits balance fits
    refine ⟨fun waits => shortCalm balance waits now fun noBlank => ?_, ih (offerBalance balance now) behind short.rest⟩
    have first := short [bytes] (List.cons_prefix_cons.mpr ⟨rfl, List.nil_prefix⟩) (List.cons_ne_nil _ _)
    simp only [List.flatten_cons, List.flatten_nil, List.append_nil] at first
    exact first noBlank

theorem acceptedWaits {rest : List Bytes} (balance : Balance service i sent) (noBlank : Open sent)
    (accepted : (rest.foldl (offer service) i).Accepted) : i.due = false ∧ i.request.inHead = true := by
  have kept (due : i.due = true) : (rest.foldl (offer service) i).request = i.request :=
    congrArg Progress.request (offersDue due balance.sound.inside)
  cases balance.account with
  | waits due pending =>
    rcases pendingParted pending with reading | ⟨_, parted⟩
    · exact ⟨due, reading⟩
    · exact absurd noBlank (partedClosed balance.total parted)
  | through _ _ parted => exact absurd noBlank (partedClosed balance.total parted)
  | refused due _ _ known status =>
    obtain ⟨notOk, notMissing, _⟩ := faultStatus known
    have fate := accepted.2
    rw [kept due, status] at fate
    exact absurd fate (not_or.mpr ⟨notOk, notMissing⟩)
  | crowded due _ _ _ _ _ status =>
    have fate := accepted.2
    rw [kept due, status] at fate
    exact absurd fate (by decide)

theorem waitsBelow {bytes : Bytes} (balance : Balance service i sent)
    (fits : (i.push bytes).buffer.stored.length < Word.size) (waits : (i.offer service bytes).due = false)
    (reading : (i.offer service bytes).request.inHead = true) :
    (sent ++ bytes).length < service.limits.headLimit := by
  have before : i.due = false := by
    cases due : i.due with
    | false => rfl
    | true => simp [offer, due, push] at waits
  obtain ⟨_, _, _, request, ended, unread⟩ := offerPlain balance before fits
  have below := Request.waitsShort (ended ▸ waits) (request ▸ reading)
  have after : Balance service (i.offer service bytes) (sent ++ bytes) := offerBalance balance fits
  rw [(after.pending waits).headHeld reading, unread]
  exact below

theorem acceptedShort {deliveries : List Bytes} (balance : Balance service i sent)
    (fits : i.buffer.stored.length + deliveries.flatten.length < Word.size)
    (accepted : (deliveries.foldl (offer service) i).Accepted) : Short service.limits.headLimit sent deliveries := by
  induction deliveries generalizing i sent with
  | nil => exact fun early front some => absurd (List.prefix_nil.mp front) some
  | cons bytes rest ih =>
    obtain ⟨now, behind⟩ := offerFits balance fits
    have next := offerBalance balance now
    refine shortCons (fun noBlank => ?_) (ih next behind accepted)
    obtain ⟨waits, reading⟩ := acceptedWaits next noBlank accepted
    exact waitsBelow balance now waits reading

/-- Deliveries that bring a head are accepted exactly when one delivery of all of it is
and none of them ends inside the head at the limit or behind it. -/
theorem acceptedIff (service : Service) (first : Bytes) (rest : List Bytes) (head : Bytes)
    (word : (first :: rest).flatten.length < Word.size) (isHead : IsHead head)
    (inside : head <+: (first :: rest).flatten) :
    (offerAll service (first :: rest)).Accepted ↔ (deliver service {} (first :: rest).flatten).Accepted ∧
      ∀ early, early <+: first :: rest → early ≠ [] → early.flatten.length < head.length →
        early.flatten.length < service.limits.headLimit := by
  have fresh := freshBalance service
  have fits : ({} : Intake).buffer.stored.length + (first :: rest).flatten.length < Word.size := by simpa using word
  have same (calm : Calm service {} (first :: rest)) :
      (offerAll service (first :: rest)).Accepted ↔ (deliver service {} (first :: rest).flatten).Accepted := by
    obtain ⟨due, _, request, _⟩ := (deliveriesResume service first rest word).1 calm
    have status : (offerAll service (first :: rest)).request.status =
        (deliver service {} (first :: rest).flatten).request.status := by
      have parked := congrArg Request.status request
      exact parked
    unfold Accepted
    rw [due, status]
  have opened {early : List Bytes} (front : early <+: first :: rest) :
      Open early.flatten ↔ early.flatten.length < head.length := by
    obtain ⟨late, whole⟩ := front
    exact HeadEnd.openShorter isHead inside ⟨late.flatten, by rw [← List.flatten_append, whole]⟩
  constructor
  · intro accepted
    have short := acceptedShort fresh fits accepted
    have status : (offerAll service (first :: rest)).request.status ≠ .requestHeaderFieldsTooLarge := by
      rcases accepted.2 with ok | missing
      · simp [ok]
      · simp [missing]
    exact ⟨(same (calmUnlessLong fresh fits status)).mp accepted,
      fun early front some within => short early front some ((opened front).mpr within)⟩
  · rintro ⟨accepted, short⟩
    refine (same (shortAllCalm fresh fits fun early front some noBlank => ?_)).mpr accepted
    exact short early front some ((opened front).mp noBlank)

theorem acceptedIffEarlyCut :
    let service : Service := ⟨⟨[(ascii "index.html", .file [0x2a])]⟩, { headLimit := 10 }, ChainTable.byteHash⟩
    let head := ascii "GET / HTTP/1.1\r\n\r\n"
    IsHead head ∧ service.limits.headLimit < head.length ∧ (offerAll service [head.take 6, head.drop 6]).Accepted := by
  intro service head
  have long : IsHead head ∧ service.limits.headLimit < head.length := by decide +kernel
  have whole : (deliver service {} [head.take 6, head.drop 6].flatten).Accepted := by decide +kernel
  have word : [head.take 6, head.drop 6].flatten.length < Word.size := by decide +kernel
  have inside : head <+: [head.take 6, head.drop 6].flatten := ⟨[], by decide +kernel⟩
  have accepted := acceptedIff service _ _ head word long.1 inside
  refine ⟨long.1, long.2, accepted.mpr ⟨whole, fun early front some within => ?_⟩⟩
  have cuts : ∀ n ≤ 2, ([head.take 6, head.drop 6].take n).flatten.length < head.length →
      ([head.take 6, head.drop 6].take n).flatten.length < service.limits.headLimit := by decide +kernel
  rw [List.prefix_iff_eq_take.mp front] at within ⊢
  exact cuts early.length front.length_le within

/- The limit is no bound on the heads that are accepted: the same head is accepted in one
piece and refused in two. -/
theorem longHeadAccepted :
    let service : Service := ⟨⟨[(ascii "index.html", .file [0x2a])]⟩, { headLimit := 10 }, ChainTable.byteHash⟩
    let head := ascii "GET / HTTP/1.1\r\n\r\n"
    IsHead head ∧ service.limits.headLimit < head.length ∧
      (offerAll service [head]).due = true ∧ (offerAll service [head]).request.status = .ok ∧
      (offerAll service [head.take 12, head.drop 12]).request.status = .requestHeaderFieldsTooLarge := by
  decide +kernel

end Intake
end StaticHttp
