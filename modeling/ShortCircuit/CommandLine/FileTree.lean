/-!
# Paths and files

Paths are compared part by part, and a tree of files is the list of its files by their paths.

* `PathPart.compare` orders paths as lists of their parts.
* `FileTree.find` resolves a path against the tree.
* `isChunkName` tells by its ending whether a file is taken from a directory.
-/

namespace ShortCircuit

/-- A part of a path, in the order in which parts sort. -/
inductive PathPart where
  | root
  | current
  | parent
  | name (text : String)
deriving DecidableEq, Repr

namespace PathPart

/-- The kind of a part as a number. -/
def rank : PathPart → Nat
  | .root => 0
  | .current => 1
  | .parent => 2
  | .name _ => 3

/-- The text of a named part. -/
def text : PathPart → String
  | .name text => text
  | _ => ""

/-- Whether `p` sorts strictly before `q`. -/
def before (p q : PathPart) : Bool :=
  p.rank < q.rank || (p.rank == q.rank && decide (p.text < q.text))

/-- The parts of a path. Repeated and closing slashes do not count, nor does a dot unless it comes
first. -/
def ofPath (path : String) : List PathPart :=
  let pieces := path.splitOn "/"
  let part (piece : String) : Option PathPart :=
    if piece = "" || piece = "." then none
    else if piece = ".." then some .parent
    else some (.name piece)
  let lead := match pieces with
    | "" :: _ :: _ => [.root]
    | "." :: _ => [.current]
    | _ => []
  lead ++ pieces.filterMap part

/-- Whether the parts `ps` sort before `qs` or are equal to them. -/
def le : List PathPart → List PathPart → Bool
  | [], _ => true
  | _ :: _, [] => false
  | p :: ps, q :: qs => if p.before q then true else if q.before p then false else le ps qs

end PathPart

/-- Whether a file name ends in one of the endings of chunks, after a nonempty stem. -/
def isChunkName (name : String) : Bool :=
  match (name.splitOn ".").reverse with
  | ending :: stem => !stem.isEmpty && stem != [""] && (ending = "luac" || ending = "out")
  | [] => false

/-- Why a path cannot be read. -/
inductive Unreadable where
  | missing
  | notDirectory
  | other (reason : String)
deriving DecidableEq, Repr

/-- The text of the reason. -/
def Unreadable.message : Unreadable → String
  | .missing => "No such file or directory (os error 2)"
  | .notDirectory => "Not a directory (os error 20)"
  | .other reason => reason

/-- What a path leads to: a file, or a directory given by the files anywhere below it. -/
inductive Entry where
  | file (bytes : List UInt8)
  | directory (files : List (List String × Except Unreadable (List UInt8)))

/-- All files of a tree by the names on the way to them. -/
structure FileTree where
  files : List (List String × List UInt8)

namespace FileTree

/-- The files below a directory, by their paths from there. -/
def below (t : FileTree) (directory : List String) : List (List String × List UInt8) :=
  t.files.filterMap fun (path, bytes) =>
    if directory.isPrefixOf path && directory.length < path.length then
      some (path.drop directory.length, bytes)
    else none

/-- Whether a place in the tree is a directory. -/
def isDirectory (t : FileTree) (place : List String) : Bool :=
  place.isEmpty || !(t.below place).isEmpty

/-- Follows one piece of a path from a place, which has to be a directory. -/
def step (t : FileTree) (place : List String) (piece : String) :
    Except Unreadable (List String) :=
  if !t.isDirectory place then .error .notDirectory
  else if piece = "" || piece = "." then .ok place
  else if piece = ".." then (if place.isEmpty then .error .missing else .ok place.dropLast)
  else
    let next := place ++ [piece]
    if t.isDirectory next || t.files.any (·.1 == next) then .ok next else .error .missing

/-- What a path leads to; absolute paths lie outside of the tree. -/
def find (t : FileTree) (path : String) : Except Unreadable Entry := do
  if path.startsWith "/" then throw .missing
  let place ← (path.splitOn "/").foldlM t.step []
  if t.isDirectory place then
    return .directory ((t.below place).map fun (path, bytes) => (path, .ok bytes))
  match t.files.find? (·.1 == place) with
  | some (_, bytes) => return .file bytes
  | none => throw .missing

end FileTree

end ShortCircuit
