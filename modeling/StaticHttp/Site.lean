import StaticHttp.Bytes
/-! The tree of files a server offers: directories and regular files under names
that are byte strings. There are no links, so a path has one meaning. -/
namespace StaticHttp

inductive Node where
  | file (content : Bytes)
  | directory (entries : List (Bytes × Node))

abbrev Path := List Bytes

structure Site where
  entries : List (Bytes × Node) := []

namespace Node

def longestName : Nat := 255

def stays (segment : Bytes) : Bool := segment == [] || segment == [Byte.dot]

/- Follows path segments down from a node and gives the names on the way. Every
segment, also one that stays, asks for a directory. -/
def follow : Node → List Bytes → Option (Path × Node)
  | node, [] => some ([], node)
  | .file _, _ :: _ => none
  | .directory entries, segment :: rest =>
      if stays segment then (directory entries).follow rest
      else if longestName < segment.length then none
      else
        match entries.lookup segment with
        | some child => (child.follow rest).map fun reached => (segment :: reached.1, reached.2)
        | none => none

def alter (name : Bytes) (change : Option Node → Node) : List (Bytes × Node) → List (Bytes × Node)
  | [] => [(name, change none)]
  | (other, child) :: rest =>
      if other = name then (other, change (some child)) :: rest
      else (other, child) :: alter name change rest

def entriesOf : Option Node → List (Bytes × Node)
  | some (.directory entries) => entries
  | _ => []

def write (content : Bytes) : Path → Option Node → Node
  | [], _ => .file content
  | name :: rest, node => .directory (alter name (write content rest) (entriesOf node))

def makeDirectory : Path → Option Node → Node
  | [], node => .directory (entriesOf node)
  | name :: rest, node => .directory (alter name (makeDirectory rest) (entriesOf node))

end Node

namespace Site

def root (site : Site) : Node := .directory site.entries

def ofNode (node : Node) : Site := ⟨Node.entriesOf (some node)⟩

def write (site : Site) (path : Path) (content : Bytes) : Site := ofNode (Node.write content path site.root)

def makeDirectory (site : Site) (path : Path) : Site := ofNode (Node.makeDirectory path site.root)

def content? (site : Site) (path : Path) : Option Bytes :=
  match site.root.follow path with
  | some (_, .file content) => some content
  | _ => none

def segments : Bytes → List Bytes
  | [] => [[]]
  | b :: rest =>
      if b = Byte.slash then [] :: segments rest
      else
        match segments rest with
        | [] => [[b]]
        | segment :: others => (b :: segment) :: others

def pathOf (text : Bytes) : Path := (segments text).filter fun s => !Node.stays s

end Site
end StaticHttp
