import StaticHttp.Reply.Send
import StaticHttp.Proofs.Kept
/-! Files that are found are files that can be sent: the path that was followed
leads to the same file again, and its content has the length that was noted. So
a reply is sent to its end when the transport takes everything. -/
namespace StaticHttp

namespace Node

theorem followAgain {node reached : Node} {segments path : List Bytes}
    (followed : node.follow segments = some (path, reached)) : node.follow path = some (path, reached) := by
  induction segments generalizing node path with
  | nil =>
    cases followed
    rfl
  | cons segment rest ih =>
    cases node with
    | file content => contradiction
    | directory entries =>
      simp only [follow] at followed
      split at followed
      · exact ih followed
      · rename_i moves
        split at followed
        · contradiction
        · rename_i short
          split at followed
          · rename_i child found
            obtain ⟨⟨names, last⟩, onward, named⟩ := Option.map_eq_some_iff.mp followed
            cases named
            simp only [follow, if_neg moves, if_neg short, found, ih onward, Option.map_some]
          · contradiction

theorem followInto {node child : Node} {segments path : List Bytes} {entries : List (Bytes × Node)} {name : Bytes}
    (followed : node.follow segments = some (path, .directory entries)) (found : entries.lookup name = some child)
    (moves : ¬ stays name = true) (short : ¬ longestName < name.length) :
    node.follow (segments ++ [name]) = some (path ++ [name], child) := by
  induction segments generalizing node path with
  | nil =>
    cases followed
    simp only [List.nil_append, follow, if_neg moves, if_neg short, found, Option.map_some]
  | cons segment rest ih =>
    cases node with
    | file content => contradiction
    | directory above =>
      simp only [List.cons_append, follow] at followed ⊢
      split at followed
      · rename_i here
        rw [if_pos here]
        exact ih followed
      · rename_i away
        rw [if_neg away]
        split at followed
        · contradiction
        · rename_i fits
          rw [if_neg fits]
          split at followed
          · rename_i next _
            obtain ⟨⟨names, last⟩, onward, named⟩ := Option.map_eq_some_iff.mp followed
            cases named
            simp only [ih onward, Option.map_some, List.cons_append]
          · contradiction

end Node

namespace Site

def Holds (site : Site) (opened : Opened) : Prop :=
  ∃ content, site.content? opened.path = some content ∧ content.length = opened.size

theorem indexHolds {site : Site} {path : Path} {entries : List (Bytes × Node)} {opened : Opened}
    (followed : site.root.follow path = some (path, .directory entries))
    (found : openIndex path entries = some opened) : site.Holds opened := by
  unfold openIndex at found
  split at found
  · rename_i content index
    cases found
    have file := Node.followInto followed index (by decide) (by decide)
    exact ⟨content, by simp only [content?, file], rfl⟩
  · contradiction

theorem relativeHolds {site : Site} {path : Bytes} {opened : Opened}
    (found : site.openRelative path = some opened) : site.Holds opened := by
  unfold openRelative at found
  split at found
  · contradiction
  · split at found
    · rename_i names content followed
      cases found
      exact ⟨content, by simp only [content?, Node.followAgain followed], rfl⟩
    · rename_i names entries followed
      exact indexHolds (Node.followAgain followed) found
    · contradiction

theorem findHolds {site : Site} {path : Bytes} {opened : Opened} (found : site.find path = .ok opened) :
    site.Holds opened := by
  unfold find at found
  repeat' split at found
  all_goals cases found
  rename_i relative
  exact relativeHolds relative

theorem faultPageHolds {site : Site} {opened : Opened} (found : site.faultPage = some opened) :
    site.Holds opened := by
  unfold faultPage at found
  split at found
  · rename_i content page
    cases found
    have root : site.root.follow [] = some ([], .directory site.entries) := rfl
    have file := Node.followInto root page (by decide) (by decide)
    exact ⟨content, by simp only [List.nil_append] at file; simp only [content?, file], rfl⟩
  · contradiction

end Site

namespace Request
variable {service : Service} {r : Request}

def Stocked (service : Service) (r : Request) : Prop :=
  ∀ opened, r.resource = some opened → service.site.Holds opened

theorem freshStocked (service : Service) : Stocked service {} := by
  intro opened none
  contradiction

theorem keptStocked (service : Service) : Kept service (Stocked service) where
  draft _ stocked := stocked
  phase _ stocked := stocked
  missing stocked := stocked
  found _ there _ := by
    intro opened same
    cases same
    exact Site.findHolds there
  rejected _ _ := by
    intro opened none
    contradiction

theorem advanceStocked {β : Type} [ByteQueue β] (stocked : Stocked service r) (buffer : β) :
    Stocked service (advance service r buffer).request :=
  (keptStocked service).advance stocked buffer

end Request

namespace Reply

theorem sendFileEnds {content : Bytes} {reply : Reply} (length : reply.length = content.length) :
    (sendFile content reply []).2.2 = .ok () := by
  induction left : reply.length - reply.sent using Nat.strongRecOn generalizing reply with
  | ind unsent ih =>
    unfold sendFile
    split
    · rename_i some
      have offered : ((content.drop reply.sent).take (min (reply.length - reply.sent) sendLimit)).length ≠ 0 := by
        simp only [List.length_take, List.length_drop, sendLimit]
        omega
      simp only [List.head?_nil, grasp]
      split
      · contradiction
      · rename_i empty
        simp [Except.ok.inj empty] at offered
      · rename_i b rest taken
        have shorter : reply.length - (reply.sent + (b :: rest).length) < unsent := by
          simp only [List.length_cons]
          omega
        exact ih _ shorter length rfl
    · rfl

theorem sendEnds {service : Service} {r : Request} {method : Option Method} {output : OffsetBuffer}
    (stocked : Request.Stocked service r) :
    (send service.site (bodyOf method (selected service r)) output []).result = .ok () := by
  have holds : ∀ opened, selected service r = some opened → service.site.Holds opened := by
    intro opened chosen
    unfold selected at chosen
    split at chosen
    · exact Site.faultPageHolds chosen
    · exact stocked opened chosen
  cases chosen : selected service r with
  | none => rfl
  | some opened =>
    by_cases head : method = some .head
    · simp only [bodyOf, head, if_true, send, List.head?_nil, sendBody]
    · obtain ⟨content, there, size⟩ := holds opened chosen
      have ends : (sendFile content { body := some opened.path, length := opened.size, phase := .body } []).2.2 =
          .ok () := sendFileEnds size.symm
      simp only [bodyOf, if_neg head, send, List.head?_nil, List.tail_nil, sendBody, there, Option.getD_some]
      generalize sendFile content _ [] = sending at ends ⊢
      obtain ⟨last, calls, result⟩ := sending
      simp only at ends
      simp only [ends]

end Reply
end StaticHttp
