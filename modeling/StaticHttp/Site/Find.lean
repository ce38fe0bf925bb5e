import StaticHttp.Site
import StaticHttp.Fault
import StaticHttp.Text.Utf8
/-! From the path of a request to a file of the site. A directory stands for the
index file in it. No path with a parent segment is followed at all. -/
namespace StaticHttp

structure Opened where
  path : Path
  size : Nat
  index : Bool
  deriving DecidableEq, Repr

namespace Site

def indexName : Bytes := ascii "index.html"
def faultName : Bytes := ascii "error.html"

def pathLimit : Nat := 4096

def climbs (path : Bytes) : Bool := (segments path).any fun s => s == [Byte.dot, Byte.dot]

def relative (path : Bytes) : Bytes :=
  match path.dropWhile (· == Byte.slash) with
  | [] => [Byte.dot]
  | rest => rest

def openIndex (path : Path) (entries : List (Bytes × Node)) : Option Opened :=
  match entries.lookup indexName with
  | some (.file content) => some ⟨path ++ [indexName], content.length, true⟩
  | _ => none

def openRelative (site : Site) (path : Bytes) : Option Opened :=
  if path.contains 0 || pathLimit ≤ path.length then none
  else
    match site.root.follow (segments path) with
    | some (path, .file content) => some ⟨path, content.length, false⟩
    | some (path, .directory entries) => openIndex path entries
    | none => none

def find (site : Site) (path : Bytes) : Except Fault Opened :=
  if Utf8.valid path then
    if climbs path then .error .notFound
    else
      match site.openRelative (relative path) with
      | some opened => .ok opened
      | none => .error .notFound
  else .error .invalidUrl

theorem findFault {site : Site} {path : Bytes} {fault : Fault} (refused : site.find path = .error fault) :
    fault = .notFound ∨ fault = .invalidUrl := by
  unfold find at refused
  repeat' split at refused
  all_goals cases refused
  · exact .inl rfl
  · exact .inl rfl
  · exact .inr rfl

theorem findInvalid {site : Site} {path : Bytes} : site.find path = .error .invalidUrl ↔ Utf8.valid path = false := by
  unfold find
  cases Utf8.valid path with
  | false => simp
  | true =>
    simp only [if_true]
    repeat' split
    all_goals simp

def refuses (path : Bytes) : Bool := Utf8.valid path && climbs path

def faultPage (site : Site) : Option Opened :=
  match site.entries.lookup faultName with
  | some (.file content) => some ⟨[faultName], content.length, false⟩
  | _ => none

/- Follows a path with parent segments, `above` holding the directories passed.
The topmost directory is its own parent. -/
def enter (above : List Node) (here : Node) : List Bytes → Except IoKind Node
  | [] => .ok here
  | segment :: rest =>
      match here with
      | .file _ => .error .notADirectory
      | .directory entries =>
          if Node.stays segment then enter above here rest
          else if segment = [Byte.dot, Byte.dot] then
            match above with
            | [] => enter [] here rest
            | parent :: others => enter others parent rest
          else if Node.longestName < segment.length then .error .invalidFilename
          else
            match entries.lookup segment with
            | some child => enter (here :: above) child rest
            | none => .error .notFound

def subsite (site : Site) (path : Bytes) : Except IoKind Site :=
  if path.contains 0 then .error .invalidInput
  else
    match enter [] site.root (segments path) with
    | .ok (.directory entries) => .ok ⟨entries⟩
    | .ok (.file _) => .error .invalidInput
    | .error kind => .error kind

end Site
end StaticHttp
