import StaticHttp.Proofs.Confined
import StaticHttp.Proofs.Delimited
import StaticHttp.Proofs.Lifetimes
import StaticHttp.Proofs.TargetText
/-! The type of a file is told from the target and the file is found by another way, from
segment to segment. Both come to the same name: the type is the one that the file has by
its own name in its directory, however it was asked for. -/
namespace StaticHttp

namespace Mime

def extensionOf (name : Bytes) : Bytes :=
  if Byte.dot ∈ name then (name.reverse.takeWhile (· != Byte.dot)).reverse else []

def ofName (name : Bytes) : String :=
  ((types.find? fun t => (extensionOf name).sameLetters (ascii t.1)).map Prod.snd).getD fallback

theorem extensionBehind {front last : Bytes} (plain : Byte.dot ∉ last) : extensionOf (front ++ Byte.dot :: last) = last := by
  have before : ∀ b ∈ last.reverse, (b != Byte.dot) = true := by
    intro b inside
    exact bne_iff_ne.mpr fun same => plain (same ▸ List.mem_reverse.mp inside)
  have parts : (front ++ Byte.dot :: last).reverse = last.reverse ++ Byte.dot :: front.reverse := by simp
  have cut : (Byte.dot :: front.reverse).takeWhile (· != Byte.dot) = [] := by simp
  rw [extensionOf, if_pos (by simp), parts, List.takeWhile_append_of_pos before, cut, List.append_nil, List.reverse_reverse]

end Mime

namespace Target
variable {front last : Bytes}

theorem lastMarkPlain {bytes : Bytes} (dotless : Byte.dot ∉ bytes) (single : Byte.slash ∉ bytes) : lastMark bytes = none := by
  induction bytes with
  | nil => rfl
  | cons b rest ih =>
    have dot : ¬ b = Byte.dot := (List.ne_of_not_mem_cons dotless).symm
    have slash : ¬ b = Byte.slash := (List.ne_of_not_mem_cons single).symm
    simp only [lastMark, ih (List.not_mem_of_not_mem_cons dotless) (List.not_mem_of_not_mem_cons single), if_neg dot,
      if_neg slash]

theorem lastMarkBehind {bytes : Bytes} {i : Nat} {isDot : Bool} (found : lastMark bytes = some (i, isDot)) (front : Bytes) :
    lastMark (front ++ bytes) = some (front.length + i, isDot) := by
  induction front with
  | nil => simpa using found
  | cons b rest ih =>
    simp only [List.cons_append, lastMark, ih, List.length_cons]
    congr 2
    omega

theorem suffixDot (dotless : Byte.dot ∉ last) (single : Byte.slash ∉ last) : suffix (front ++ Byte.dot :: last) = last := by
  have mark : lastMark (Byte.dot :: last) = some (0, true) := by
    simp only [lastMark, lastMarkPlain dotless single, if_true]
  simp [suffix, lastMarkBehind mark front]

theorem suffixSlash (dotless : Byte.dot ∉ last) (single : Byte.slash ∉ last) : suffix (front ++ Byte.slash :: last) = [] := by
  have mark : lastMark (Byte.slash :: last) = some (0, false) := by
    have other : ¬ Byte.slash = Byte.dot := by decide
    simp only [lastMark, lastMarkPlain dotless single, if_neg other, if_true]
  simp [suffix, lastMarkBehind mark front]

theorem suffixName (single : Byte.slash ∉ last) (ends : front = [] ∨ [Byte.slash] <:+ front) :
    suffix (front ++ last) = Mime.extensionOf last := by
  by_cases dotted : Byte.dot ∈ last
  · obtain ⟨before, extension, rfl, plain⟩ := Bytes.partedLast dotted
    have inner : Byte.slash ∉ extension := fun inside => single (by simp [inside])
    rw [Mime.extensionBehind plain, ← List.append_assoc, suffixDot plain inner]
  · rw [Mime.extensionOf, if_neg dotted]
    rcases ends with rfl | ⟨before, rfl⟩
    · rw [List.nil_append, suffix, lastMarkPlain dotted single]
    · rw [List.append_assoc, List.singleton_append, suffixSlash dotted single]

end Target

namespace Node

theorem movingLast {segments : List Bytes} {last : Bytes} (stands : trails (segments ++ [last]) = false) :
    moving (segments ++ [last]) = moving segments ++ [last] := by
  have moves : stays last = false := by simpa [trails] using stands
  simp [moving, moves]

theorem followNamed {segments : List Bytes} (moves : ∀ segment ∈ segments, stays segment = false)
    (short : ∀ segment ∈ segments, segment.length ≤ longestName) (node : Node) :
    node.follow segments = (node.descend segments).map fun reached => (segments, reached) := by
  have all : moving segments = segments := List.filter_eq_self.mpr fun segment inside => by simp [moves segment inside]
  have stands : trails segments = false := by
    rw [trails, Option.any_eq_false]
    intro last there
    simp [moves last (List.mem_of_getLast? there)]
  rw [followMoving short, all, stands]
  cases node.descend segments with
  | none => rfl
  | some reached =>
    cases reached with
    | file content => rfl
    | directory entries => rfl

end Node

namespace Site
variable {site : Site} {path : Bytes} {opened : Opened}

def Labelled (site : Site) (opened : Opened) (type : String) : Prop :=
  ∃ folder name content, opened.path = folder ++ [name] ∧ type = Mime.ofName name ∧
    site.root.descend opened.path = some (.file content) ∧ site.content? opened.path = some content ∧
    content.length = opened.size

theorem Labelled.holds {type : String} (labelled : site.Labelled opened type) : site.Holds opened := by
  obtain ⟨_, _, content, _, _, _, there, size⟩ := labelled
  exact ⟨content, there, size⟩

theorem namesLast (stands : Node.trails (segments path) = false) :
    ∃ folder name, names path = folder ++ [name] ∧ Target.suffix path = Mime.extensionOf name := by
  rw [segmentsSplit] at stands
  rw [← namesMoving, segmentsSplit]
  by_cases inside : Byte.slash ∈ path
  · obtain ⟨front, last, rfl, single⟩ := Bytes.partedLast inside
    rw [List.splitOn_append_cons_self, List.splitOn_eq_singleton single] at stands ⊢
    have parts : front ++ Byte.slash :: last = front ++ [Byte.slash] ++ last := by simp
    refine ⟨_, last, Node.movingLast stands, ?_⟩
    rw [parts]
    exact Target.suffixName single (.inr (List.suffix_append _ _))
  · rw [List.splitOn_eq_singleton inside] at stands ⊢
    have alone : Node.moving ([] ++ [path]) = Node.moving [] ++ [path] := Node.movingLast stands
    exact ⟨_, path, alone, Target.suffixName inside (.inl rfl)⟩

theorem meantExtension (found : site.meant path = some opened) : ∃ folder name, opened.path = folder ++ [name] ∧
    (if opened.index then ascii "html" else Target.suffix path) = Mime.extensionOf name := by
  unfold meant at found
  split at found
  · rename_i content reached
    split at found
    · cases found
    · rename_i marks
      cases found
      exact namesLast (Bool.eq_false_iff.mpr fun trails => marks ((fileTrails reached).mp trails))
  · split at found
    · cases found
      have html : ascii "html" = Mime.extensionOf (ascii "index.html") := by decide
      exact ⟨_, ascii "index.html", rfl, html⟩
    · cases found
  · cases found

theorem meantProper (free : ¬ Barred path) (found : site.meant path = some opened) :
    ∀ name ∈ opened.path, Node.stays name = false ∧ name.length ≤ Node.longestName := by
  have named : ∀ name ∈ names path, Node.stays name = false ∧ name.length ≤ Node.longestName := by
    simp only [Barred, not_or, not_exists, not_and, Nat.not_lt] at free
    intro name inside
    obtain ⟨there, moves⟩ := List.mem_filter.mp inside
    exact ⟨by simpa [Node.stays] using moves, free.2.2.1 name there⟩
  have index : Node.stays (ascii "index.html") = false ∧ (ascii "index.html").length ≤ Node.longestName := by decide
  unfold meant at found
  repeat' split at found
  all_goals cases found
  · exact named
  · intro name inside
    rcases List.mem_append.mp inside with there | last
    · exact named name there
    · exact List.mem_singleton.mp last ▸ index

theorem findLabelled (hash : Bytes → Nat) (found : site.find path = .ok opened) :
    site.Labelled opened (Mime.ofExtension hash (if opened.index then ascii "html" else Target.suffix path)) := by
  obtain ⟨_, free, told⟩ := findFound found
  obtain ⟨folder, name, ends, extension⟩ := meantExtension told
  obtain ⟨content, reached, size⟩ := meantFile told
  have proper := meantProper free told
  have followed := Node.followNamed (fun segment inside => (proper segment inside).1)
    (fun segment inside => (proper segment inside).2) site.root
  refine ⟨folder, name, content, ends, ?_, reached, ?_, size⟩
  · rw [Mime.ofExtensionSearched, extension, Mime.ofName]
  · simp only [content?, followed, reached, Option.map_some]

end Site

def Draft.Legible (buffer : Bytes) (d : Draft) : Prop := ∃ path, d.target.Told path buffer

theorem Draft.lineLegible {d : Draft} {buffer : Bytes} (legible : d.Legible buffer) :
    (d.readRequestLine buffer).1.Legible buffer := by
  refine scanLeaves (fun _ told => told) (fun {d} position b told => ?_) legible _ _
  refine Verdict.leavesMono (lineEffect buffer d position b) fun e effect => ?_
  rcases effect.target with same | parted
  · rw [Legible, same]
    exact told
  · exact Target.splitSome parted

namespace Request
open ByteQueue (unread)
variable {service : Service} {r : Request} {β : Type} [ByteQueue β] {buffer : β}

def Labelled (service : Service) (r : Request) : Prop :=
  ∀ opened, r.resource = some opened → service.site.Labelled opened r.contentType

theorem labelledLasting (service : Service) : Lasting (Labelled service) where
  draft _ labelled := labelled
  phase _ labelled := labelled
  rejected _ _ := by
    intro opened none
    contradiction

structure Noted (service : Service) (buffer : β) (t : Turn β) : Prop where
  labelled : Labelled service t.request
  same : t.buffer = buffer
  begins : t.outcome = .found () → t.request.phase ≠ .requestLine
  legible : t.request.draft.Legible (unread buffer)

theorem locateNoted {path : Bytes} (told : r.draft.target.Told path (unread buffer)) (labelled : Labelled service r) :
    Noted service buffer (locate service r buffer path) := by
  have legible : r.draft.Legible (unread buffer) := ⟨path, told⟩
  simp only [locate]
  split
  · rename_i opened found
    refine ⟨?_, rfl, fun _ => by simp, legible⟩
    intro other noted
    cases noted
    simp only [extension, told.extension, Option.getD_some]
    exact Site.findLabelled service.hash found
  · exact ⟨labelled, rfl, fun _ => by simp, legible⟩
  · exact ⟨labelled, rfl, by simp, legible⟩

theorem lineNoted (legible : r.draft.Legible (unread buffer)) (labelled : Labelled service r) :
    Noted service buffer (takeLine service r buffer) := by
  have read := Draft.lineLegible legible
  simp only [takeLine]
  generalize r.draft.readRequestLine (unread buffer) = reading at read
  obtain ⟨d, outcome⟩ := reading
  split
  · rename_i draft same
    cases same
    split
    · exact ⟨labelled, rfl, by simp, read⟩
    · -- The path that is looked up is the one that the extension was cut from.
      obtain ⟨path, told⟩ := read
      simp only [told.path]
      exact locateNoted told labelled
  · rename_i draft stopped other same
    cases same
    exact ⟨labelled, rfl, fun found => absurd found other, read⟩

structure Apt (service : Service) (r : Request) (held : Bytes) : Prop where
  labelled : Labelled service r
  legible : r.phase = .requestLine → r.draft.Legible held

theorem freshApt (service : Service) (held : Bytes) : Apt service {} held := by
  refine ⟨?_, fun _ => ⟨[], Target.toldNothing held⟩⟩
  intro opened none
  contradiction

theorem readLegible (apt : Apt service r (unread buffer)) :
    (read service r buffer).request.phase = .requestLine →
      (read service r buffer).request.draft.Legible (unread (read service r buffer).buffer) := by
  by_cases line : r.phase = .requestLine
  · obtain ⟨_, same, begins, legible⟩ := lineNoted (apt.legible line) apt.labelled
    simp only [read, line, Turn.andThen]
    split
    · rename_i found
      intro again
      exact absurd again (begunBeyond.onward service (begins found) _)
    · intro _
      rw [same]
      exact legible
  · intro again
    exact absurd again (begunBeyond.read buffer (fun _ => line) fun begins => absurd begins line)

theorem advanceApt (apt : Apt service r (unread buffer)) :
    Apt service (advance service r buffer).request (unread (advance service r buffer).buffer) := by
  have legible := readLegible apt
  refine ⟨(labelledLasting service).beyond.advance buffer (fun _ => apt.labelled) fun line =>
    (lineNoted (apt.legible line) apt.labelled).labelled, ?_⟩
  simp only [advance, settle]
  repeat' split
  · exact legible
  · intro line
    contradiction
  · intro line
    contradiction
  · exact legible

end Request

namespace Intake
variable {service : Service} {i : Intake}

theorem performApt {deed : Deed} (lives : Lives service i) (apt : i.request.Apt service i.buffer.unread)
    (fits : (i.perform service deed).buffer.stored.length < Word.size) :
    (i.perform service deed).request.Apt service (i.perform service deed).buffer.unread := by
  cases deed with
  | push bytes =>
    obtain ⟨_, unread⟩ := pushSound lives.sound fits
    refine ⟨apt.labelled, fun line => ?_⟩
    obtain ⟨path, told⟩ := apt.legible line
    simp only [perform, unread]
    exact ⟨path, told.append bytes⟩
  | call => exact Request.advanceApt apt
  | renew => exact Request.freshApt service i.buffer.unread

theorem performAllApt {deeds : List Deed} (lives : Lives service i) (apt : i.request.Apt service i.buffer.unread)
    (contained : Contained service i deeds) :
    (deeds.foldl (perform service) i).request.Apt service (deeds.foldl (perform service) i).buffer.unread := by
  induction deeds generalizing i with
  | nil => exact apt
  | cons deed rest ih => exact ih (performLives lives contained.1) (performApt lives apt contained.1) contained.2

theorem aptThrough {deeds : List Deed} (contained : Contained service {} deeds) :
    (performAll service deeds).request.Apt service (performAll service deeds).buffer.unread :=
  performAllApt (freshLives service ⟨Nat.le_refl _, by decide⟩) (Request.freshApt service _) contained

theorem servedLabelled {deeds : List Deed} (contained : Contained service {} deeds)
    (due : (performAll service deeds).due = true) (ok : (performAll service deeds).request.status = .ok) :
    ∃ opened, Reply.selected service (performAll service deeds).request = some opened ∧
      service.site.Labelled opened (performAll service deeds).request.contentType := by
  have apt := aptThrough contained
  rcases (livesThrough contained).state with waiting | concluded
  · rw [waiting.due] at due
    contradiction
  · rcases concluded.settled with served | denied
    · obtain ⟨opened, there⟩ := Option.isSome_iff_exists.mp served.resource
      refine ⟨opened, ?_, apt.labelled opened there⟩
      rw [Reply.selected, served.unfailed]
      exact there
    · have code := denied.status
      rw [ok] at code
      exact absurd code (by decide)

end Intake

theorem Reply.composeTold (service : Service) (now : Bytes) (age : Duration) (r : Request) :
    (compose service now age r {}).head.status = r.status ∧
      Client.field? "Content-Type" (compose service now age r {}).head.fields = some (ascii r.contentType) := by
  simp only [compose, Head.forRequest, answeredSame, true_and]
  rfl

namespace Intake

end Intake
end StaticHttp
