import StaticHttp.Site.Find
import StaticHttp.Proofs.Utf8Text
/-! What a path stands for, told from its names alone: those of its segments that
are neither empty nor a dot are followed down from the root. The resolver comes to the
same, and never looks at anything that is not below the root. -/
namespace StaticHttp

namespace Bytes

theorem partedLast {b : UInt8} {bytes : Bytes} (inside : b ∈ bytes) :
    ∃ front last, bytes = front ++ b :: last ∧ b ∉ last := by
  obtain ⟨behind, before, parts, plain⟩ := List.eq_append_cons_of_mem (List.mem_reverse.mpr inside)
  refine ⟨before.reverse, behind.reverse, ?_, by simpa using plain⟩
  rw [← List.reverse_reverse bytes, parts]
  simp

end Bytes

namespace Node

def descend : Node → Path → Option Node
  | node, [] => some node
  | .file _, _ :: _ => none
  | .directory entries, name :: rest =>
      match entries.lookup name with
      | some child => child.descend rest
      | none => none

theorem descendSnoc (node : Node) (path : Path) (name : Bytes) :
    node.descend (path ++ [name]) = (node.descend path).bind fun reached => reached.descend [name] := by
  induction path generalizing node with
  | nil => rfl
  | cons first rest ih =>
    cases node with
    | file content => rfl
    | directory entries =>
      simp only [List.cons_append, descend]
      cases entries.lookup first with
      | none => rfl
      | some child => exact ih child

def moving (segments : List Bytes) : Path := segments.filter fun segment => !stays segment

theorem movingStays {segment : Bytes} (here : stays segment = true) (rest : List Bytes) :
    moving (segment :: rest) = moving rest := by
  simp [moving, here]

theorem movingNames {segment : Bytes} (away : stays segment = false) (rest : List Bytes) :
    moving (segment :: rest) = segment :: moving rest := by
  simp [moving, away]

def trails (segments : List Bytes) : Bool := segments.getLast?.any stays

theorem trailsCons (segment : Bytes) {rest : List Bytes} (more : rest ≠ []) : trails (segment :: rest) = trails rest := by
  obtain ⟨next, others, rfl⟩ := List.exists_cons_of_ne_nil more
  simp [trails, List.getLast?_cons_cons]

theorem trailsStaying {segments : List Bytes} (some : segments ≠ []) (still : moving segments = []) :
    trails segments = true := by
  have each : ∀ segment ∈ segments, stays segment = true := by simpa [moving] using still
  rw [trails, List.getLast?_eq_some_getLast some]
  exact each _ (List.getLast_mem some)

def arrival (path : Path) (trailing : Bool) : Option Node → Option (Path × Node)
  | some (.file content) => if trailing then none else some (path, .file content)
  | some (.directory entries) => some (path, .directory entries)
  | none => none

theorem arrivalCons (name : Bytes) (path : Path) (trailing : Bool) (reached : Option Node) :
    ((arrival path trailing reached).map fun arrived => (name :: arrived.1, arrived.2)) =
      arrival (name :: path) trailing reached := by
  cases reached with
  | none => rfl
  | some node =>
    cases node with
    | directory entries => rfl
    | file content =>
      cases trailing with
      | true => rfl
      | false => rfl

theorem followMoving {segments : List Bytes} (short : ∀ segment ∈ segments, segment.length ≤ longestName) (node : Node) :
    node.follow segments = arrival (moving segments) (trails segments) (node.descend (moving segments)) := by
  induction segments generalizing node with
  | nil =>
    cases node with
    | file content => rfl
    | directory entries => rfl
  | cons segment rest ih =>
    have later := ih fun other inside => short other (List.mem_cons_of_mem _ inside)
    have fits : ¬ longestName < segment.length := Nat.not_lt.mpr (short segment (by simp))
    cases node with
    | file content =>
      cases moved : moving (segment :: rest) with
      | nil => simp [follow, descend, arrival, trailsStaying (List.cons_ne_nil segment rest) moved]
      | cons name names => rfl
    | directory entries =>
      cases here : stays segment with
      | true =>
        rw [follow, if_pos here, later, movingStays here]
        cases rest with
        | nil => rfl
        | cons next others => rw [trailsCons segment (List.cons_ne_nil next others)]
      | false =>
        have away : ¬ stays segment = true := by simp [here]
        rw [movingNames here]
        simp only [follow, if_neg away, if_neg fits, descend]
        cases found : entries.lookup segment with
        | none => rfl
        | some child =>
          have same : trails (segment :: rest) = trails rest := by
            cases rest with
            | nil => simp [trails, here]
            | cons next others => exact trailsCons segment (List.cons_ne_nil next others)
          simp only [later child, same, arrivalCons]

theorem followLong {segments : List Bytes} (long : ∃ segment ∈ segments, longestName < segment.length) (node : Node) :
    node.follow segments = none := by
  obtain ⟨segment, inside, long⟩ := long
  induction segments generalizing node with
  | nil => simp at inside
  | cons first rest ih =>
    cases node with
    | file content => rfl
    | directory entries =>
      have names : stays segment = true → ¬ longestName < segment.length := by
        intro here
        simp only [stays, Bool.or_eq_true, beq_iff_eq] at here
        rcases here with rfl | rfl
        · decide
        · decide
      simp only [follow]
      rcases List.mem_cons.mp inside with rfl | later
      · rw [if_neg fun here => names here long, if_pos long]
      · split
        · exact ih _ later
        · split
          · rfl
          · split
            · rw [ih _ later]
              rfl
            · rfl

end Node

namespace Site

theorem segmentsSplit (path : Bytes) : segments path = path.splitOn Byte.slash := by
  induction path with
  | nil => rfl
  | cons b rest ih =>
    rw [segments, List.splitOn_cons_eq_if_modifyHead, ← ih]
    by_cases slash : b = Byte.slash
    · simp [slash]
    · rw [if_neg slash, if_neg (by simpa using slash)]
      cases parts : segments rest with
      | nil => exact absurd (ih.symm.trans parts) (List.splitOn_ne_nil _ _)
      | cons segment others => rfl

def names (path : Bytes) : Path := (path.splitOn Byte.slash).filter fun name => name ≠ [] ∧ name ≠ [Byte.dot]

def below (path : Bytes) : Bytes := path.dropWhile (· == Byte.slash)

def Barred (path : Bytes) : Prop :=
  [Byte.dot, Byte.dot] ∈ path.splitOn Byte.slash ∨ 0 ∈ path ∨
    (∃ name ∈ path.splitOn Byte.slash, 255 < name.length) ∨ 4096 ≤ (below path).length

def meant (site : Site) (path : Bytes) : Option Opened :=
  match site.root.descend (names path) with
  | some (.file content) =>
      if [Byte.slash] <:+ path ∨ [Byte.slash, Byte.dot] <:+ path then none
      else some ⟨names path, content.length, false⟩
  | some (.directory _) =>
      match site.root.descend (names path ++ [ascii "index.html"]) with
      | some (.file content) => some ⟨names path ++ [ascii "index.html"], content.length, true⟩
      | _ => none
  | none => none

theorem namesMoving (path : Bytes) : Node.moving (segments path) = names path := by
  rw [segmentsSplit, Node.moving, names]
  congr 1
  funext segment
  rw [Bool.eq_iff_iff]
  simp [Node.stays]

theorem followRelative (entries : List (Bytes × Node)) (path : Bytes) :
    (Node.directory entries).follow (segments (relative path)) = (Node.directory entries).follow (segments path) := by
  induction path with
  | nil => rfl
  | cons b rest ih =>
    by_cases slash : b = Byte.slash
    · subst slash
      have front : relative (Byte.slash :: rest) = relative rest := rfl
      rw [front, ih]
      rfl
    · have whole : relative (b :: rest) = b :: rest := by simp [relative, slash]
      rw [whole]

theorem enterRelative (above : List Node) (entries : List (Bytes × Node)) (path : Bytes) :
    enter above (.directory entries) (segments (relative path)) = enter above (.directory entries) (segments path) := by
  induction path with
  | nil => rfl
  | cons b rest ih =>
    by_cases slash : b = Byte.slash
    · subst slash
      have front : relative (Byte.slash :: rest) = relative rest := rfl
      rw [front, ih]
      rfl
    · have whole : relative (b :: rest) = b :: rest := by simp [relative, slash]
      rw [whole]

theorem relativeBelow (path : Bytes) : relative path = if below path = [] then [Byte.dot] else below path := by
  rw [relative, ← below]
  cases below path with
  | nil => rfl
  | cons b rest => rfl

theorem belowZero (path : Bytes) : (relative path).contains 0 = true ↔ 0 ∈ path := by
  have front : 0 ∉ path.takeWhile (· == Byte.slash) := fun inside =>
    absurd (List.all_eq_true.mp List.all_takeWhile 0 inside) (by decide)
  have whole : 0 ∈ path ↔ 0 ∈ below path := by
    have parts : path.takeWhile (· == Byte.slash) ++ below path = path := List.takeWhile_append_dropWhile
    rw [← parts, List.mem_append, or_iff_right front, parts]
  rw [relativeBelow, whole, List.contains_iff_mem]
  split
  · rename_i none
    simp [none, Byte.dot]
  · rfl

theorem belowLong (path : Bytes) : pathLimit ≤ (relative path).length ↔ 4096 ≤ (below path).length := by
  rw [relativeBelow]
  split
  · rename_i none
    simp [none, pathLimit]
  · rfl

theorem suffixLast {front last tail : Bytes} (plain : Byte.slash ∉ last) (single : Byte.slash ∉ tail) :
    Byte.slash :: tail <:+ front ++ Byte.slash :: last ↔ last = tail := by
  constructor
  · rintro ⟨before, same⟩
    have split := congrArg (List.splitOn Byte.slash) same
    rw [List.splitOn_append_cons_self, List.splitOn_append_cons_self, List.splitOn_eq_singleton plain,
      List.splitOn_eq_singleton single] at split
    have ends := (List.append_inj' split rfl).2
    exact (List.singleton_inj.mp ends).symm
  · rintro rfl
    exact ⟨front, rfl⟩

theorem trailsIff {path : Bytes} (named : names path ≠ []) :
    Node.trails (segments path) = true ↔ [Byte.slash] <:+ path ∨ [Byte.slash, Byte.dot] <:+ path := by
  rw [segmentsSplit]
  by_cases inside : Byte.slash ∈ path
  · obtain ⟨front, last, rfl, plain⟩ := Bytes.partedLast inside
    rw [suffixLast plain (by simp), suffixLast plain (by decide), List.splitOn_append_cons_self,
      List.splitOn_eq_singleton plain]
    simp [Node.trails, Node.stays]
  · have alone : path.splitOn Byte.slash = [path] := List.splitOn_eq_singleton inside
    have moves : path ≠ [] ∧ path ≠ [Byte.dot] := by
      simpa [names, alone] using named
    have ends (tail : Bytes) : ¬ Byte.slash :: tail <:+ path := fun suffix => inside (suffix.subset (by simp))
    simp [alone, Node.trails, Node.stays, moves, ends]

theorem followNames (site : Site) {path : Bytes} (short : ∀ name ∈ path.splitOn Byte.slash, name.length ≤ 255) :
    site.root.follow (segments path) =
      Node.arrival (names path) (Node.trails (segments path)) (site.root.descend (names path)) := by
  have lengths : ∀ segment ∈ segments path, segment.length ≤ Node.longestName := by
    rw [segmentsSplit]
    exact short
  rw [Node.followMoving lengths, namesMoving]

theorem fileTrails {site : Site} {path content : Bytes} (reached : site.root.descend (names path) = some (.file content)) :
    Node.trails (segments path) = true ↔ [Byte.slash] <:+ path ∨ [Byte.slash, Byte.dot] <:+ path := by
  refine trailsIff fun none => ?_
  rw [none] at reached
  cases reached

theorem openMeant (site : Site) {path : Bytes} (free : ¬ Barred path) :
    site.openRelative (relative path) = site.meant path := by
  simp only [Barred, not_or, not_exists, not_and, Nat.not_lt] at free
  obtain ⟨_, zero, short, fits⟩ := free
  have passes : ¬ (((relative path).contains 0 || decide (pathLimit ≤ (relative path).length)) = true) := by
    rw [Bool.or_eq_true, decide_eq_true_eq, belowZero, belowLong]
    exact not_or.mpr ⟨zero, fits⟩
  have followed := followNames site short
  rw [root, ← followRelative, ← root] at followed
  simp only [openRelative, if_neg passes, followed, meant]
  cases reached : site.root.descend (names path) with
  | none => rfl
  | some node =>
    cases node with
    | file content =>
      have ends := fileTrails reached
      by_cases trailing : Node.trails (segments path) = true
      · simp only [Node.arrival, if_pos trailing, if_pos (ends.mp trailing)]
      · simp only [Node.arrival, if_neg trailing, if_neg fun marks => trailing (ends.mpr marks)]
    | directory entries =>
      have inside := Node.descendSnoc site.root (names path) (ascii "index.html")
      simp only [reached, Option.bind_some, Node.descend] at inside
      simp only [Node.arrival, openIndex, indexName, inside]
      cases entries.lookup (ascii "index.html") with
      | none => rfl
      | some child =>
        cases child with
        | file content => rfl
        | directory entries => rfl

theorem openBarred (site : Site) {path : Bytes} (barred : Barred path) (level : climbs path = false) :
    site.openRelative (relative path) = none := by
  rcases barred with climbing | zero | long | large
  · have inside : climbs path = true := by
      rw [climbs, segmentsSplit]
      exact List.any_eq_true.mpr ⟨_, climbing, rfl⟩
    rw [level] at inside
    contradiction
  · have marked := (belowZero path).mpr zero
    simp only [openRelative, marked, Bool.true_or, if_true]
  · have stuck : site.root.follow (segments (relative path)) = none := by
      rw [root, followRelative, segmentsSplit]
      exact Node.followLong long _
    simp only [openRelative, stuck]
    split
    · rfl
    · rfl
  · have full := (belowLong path).mpr large
    simp only [openRelative, decide_eq_true full, Bool.or_true, if_true]

theorem enterFollowed {segments : List Bytes} (level : [Byte.dot, Byte.dot] ∉ segments) {node reached : Node} {path : Path}
    (followed : node.follow segments = some (path, reached)) (above : List Node) :
    enter above node segments = .ok reached := by
  induction segments generalizing node path above with
  | nil =>
    cases followed
    rfl
  | cons segment rest ih =>
    have lower := List.not_mem_of_not_mem_cons level
    have stands : ¬ segment = [Byte.dot, Byte.dot] := (List.ne_of_not_mem_cons level).symm
    cases node with
    | file content => cases followed
    | directory entries =>
      simp only [Node.follow] at followed
      simp only [enter, if_neg stands]
      split
      · rename_i here
        rw [if_pos here] at followed
        exact ih lower followed above
      · rename_i away
        rw [if_neg away] at followed
        split at followed
        · cases followed
        · rename_i fits
          rw [if_neg fits]
          cases found : entries.lookup segment with
          | none =>
            rw [found] at followed
            cases followed
          | some child =>
            rw [found] at followed
            obtain ⟨⟨names, last⟩, onward, named⟩ := Option.map_eq_some_iff.mp followed
            cases named
            exact ih lower onward _

theorem meantFile {site : Site} {path : Bytes} {opened : Opened} (found : site.meant path = some opened) :
    ∃ content, site.root.descend opened.path = some (.file content) ∧ content.length = opened.size := by
  unfold meant at found
  split at found
  · rename_i content reached
    split at found
    · cases found
    · cases found
      exact ⟨content, reached, rfl⟩
  · split at found
    · rename_i content reached
      cases found
      exact ⟨content, reached, rfl⟩
    · cases found
  · cases found

theorem meantFollowed {site : Site} {path : Bytes} {opened : Opened} (free : ¬ Barred path)
    (found : site.meant path = some opened) :
    ∃ node, site.root.descend (names path) = some node ∧ site.root.follow (segments path) = some (names path, node) := by
  simp only [Barred, not_or, not_exists, not_and, Nat.not_lt] at free
  rw [followNames site free.2.2.1]
  unfold meant at found
  split at found
  · rename_i content reached
    split at found
    · cases found
    · rename_i marks
      have trailing : ¬ Node.trails (segments path) = true := fun trails => marks ((fileTrails reached).mp trails)
      exact ⟨_, reached, by simp only [reached, Node.arrival, if_neg trailing]⟩
  · rename_i entries reached
    exact ⟨_, reached, by simp only [reached, Node.arrival]⟩
  · cases found

theorem findBarred (site : Site) {path : Bytes} (valid : Utf8.valid path = true) (barred : Barred path) :
    site.find path = .error .notFound := by
  cases level : climbs path with
  | true => simp only [find, valid, level, if_true]
  | false => simp only [find, valid, level, if_true, Bool.false_eq_true, if_false, openBarred site barred level]

theorem findMeant (site : Site) {path : Bytes} (valid : Utf8.valid path = true) (free : ¬ Barred path) :
    site.find path = (site.meant path).elim (.error .notFound) .ok := by
  have level : climbs path = false := by
    rw [Bool.eq_false_iff]
    intro climbing
    rw [climbs, segmentsSplit, List.any_eq_true] at climbing
    obtain ⟨segment, inside, same⟩ := climbing
    exact free (.inl (eq_of_beq same ▸ inside))
  simp only [find, valid, level, if_true, Bool.false_eq_true, if_false, openMeant site free]
  cases site.meant path with
  | none => rfl
  | some opened => rfl

theorem findFound {site : Site} {path : Bytes} {opened : Opened} (found : site.find path = .ok opened) :
    Utf8.valid path = true ∧ ¬ Barred path ∧ site.meant path = some opened := by
  cases valid : Utf8.valid path with
  | false =>
    rw [findInvalid.mpr valid] at found
    cases found
  | true =>
    by_cases barred : Barred path
    · rw [findBarred site valid barred] at found
      cases found
    · refine ⟨rfl, barred, ?_⟩
      rw [findMeant site valid barred] at found
      cases told : site.meant path with
      | none => simp [told] at found
      | some other => simpa [told] using found

theorem findConfined (site : Site) (path : Bytes) :
    (site.find path = .error .invalidUrl ↔ ¬ path.toByteArray.IsValidUTF8) ∧
    (path.toByteArray.IsValidUTF8 → Barred path → site.find path = .error .notFound) ∧
    (path.toByteArray.IsValidUTF8 → ¬ Barred path →
      site.find path = (site.meant path).elim (.error .notFound) .ok) ∧
    (∀ fault, site.find path = .error fault → fault = .invalidUrl ∨ fault = .notFound) ∧
    (∀ opened, site.find path = .ok opened →
      (∃ content, site.root.descend opened.path = some (.file content) ∧ content.length = opened.size) ∧
      ∀ above, ∃ node, enter above site.root (segments (relative path)) = .ok node ∧
        site.root.descend (names path) = some node) := by
  rw [← Utf8.validIff, findInvalid, Bool.eq_false_iff]
  refine ⟨Iff.rfl, findBarred site, findMeant site, fun fault refused => (findFault refused).symm, fun opened found => ?_⟩
  obtain ⟨_, free, told⟩ := findFound found
  have level : [Byte.dot, Byte.dot] ∉ segments path := by
    rw [segmentsSplit]
    exact fun climbing => free (.inl climbing)
  obtain ⟨node, reached, followed⟩ := meantFollowed free told
  refine ⟨meantFile told, fun above => ⟨node, ?_, reached⟩⟩
  rw [root, enterRelative]
  exact enterFollowed level followed above

example :
    let site : Site := ⟨[(ascii "a.b", .directory [(ascii "index.html", .file [0x2a])])]⟩
    (site.find (ascii "//a.b/./")).toOption = some ⟨[ascii "a.b", ascii "index.html"], 1, true⟩ ∧
      (site.find (ascii "/a.b/index.html/.")).toOption = none := by
  decide +kernel

end Site

end StaticHttp
