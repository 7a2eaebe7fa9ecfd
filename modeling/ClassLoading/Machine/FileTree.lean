import ClassLoading.Loader.Error

/-!
# File trees

A tree of directories and files, addressed by paths that lead from its root, or, if they start with
a slash, from the root of the file system around it. A path is followed part by part, so that a step
back from a directory that does not exist fails, and a slash at the end of a path asks for a
directory. Of the directories around the tree nothing is known but that they are there.
-/

namespace ClassLoading

/-- What a path can name. -/
inductive FileNode where
  | directory
  | file (content : List UInt8)
deriving DecidableEq, Repr

/-- The nodes below the root by their path, each path given part by part. -/
structure FileTree where
  nodes : List (List String × FileNode)
deriving DecidableEq, Repr

namespace FileTree

/-- A place that following a path can lead to. -/
inductive Place where
  /-- A node of the tree, or the root if the path is empty. -/
  | inside (path : List String)
  /-- A directory around the tree. -/
  | outside
deriving DecidableEq, Repr

/-- The tree of an empty root. -/
def empty : FileTree := ⟨[]⟩

/-- The node at a path from the root. -/
def node? (tree : FileTree) (path : List String) : Option FileNode :=
  if path = [] then some .directory else tree.nodes.lookup path

/-- The node at a place. -/
def nodeAt? (tree : FileTree) : Place → Option FileNode
  | .inside path => tree.node? path
  | .outside => some .directory

/-- The directory around a place. -/
def Place.parent : Place → Place
  | .inside [] => .outside
  | .inside path => .inside path.dropLast
  | .outside => .outside

/-- The greatest number of bytes in a part of a path. -/
def maxPartSize : Nat := 255

/-- The greatest number of bytes in a path. -/
def maxPathSize : Nat := 4095

/-- Goes from a directory to one of its children. -/
def child (tree : FileTree) (part : String) (place : Place) : Except FileError Place :=
  if maxPartSize < part.utf8ByteSize then .error .nameTooLong
  else
    match place with
    | .outside => .error .notFound
    | .inside path =>
        if (tree.node? (path ++ [part])).isSome then .ok (.inside (path ++ [part]))
        else .error .notFound

/-- Follows one part of a path. -/
def follow (tree : FileTree) (place : Place) (part : String) : Except FileError Place :=
  match tree.nodeAt? place with
  | none => .error .notFound
  | some (.file _) => .error .notDirectory
  | some .directory =>
      if part = "" || part = "." then .ok place
      else if part = ".." then .ok place.parent
      else tree.child part place

/-- The place from which a path is followed. -/
def Place.ofStart (path : String) : Place :=
  if path.toList.head? = some '/' then .outside else .inside []

/-- The place that a path leads to. -/
def resolve (tree : FileTree) (path : String) : Except FileError Place :=
  if path.toList.contains '\x00' then .error .invalidInput
  else if path.isEmpty then .error .notFound
  else if maxPathSize < path.utf8ByteSize then .error .nameTooLong
  else (path.splitOn "/").foldlM tree.follow (Place.ofStart path)

/-- The node that a path leads to. -/
def find (tree : FileTree) (path : String) : Except FileError FileNode := do
  match tree.nodeAt? (← tree.resolve path) with
  | some node => return node
  | none => throw .notFound

/-- The content of a file. -/
def read (tree : FileTree) (path : String) : Except FileError (List UInt8) := do
  match ← tree.find path with
  | .file content => return content
  | .directory => throw .isDirectory

/-- The path leads to a directory. -/
def isDirectory (tree : FileTree) (path : String) : Bool :=
  match tree.find path with
  | .ok .directory => true
  | _ => false

/-- The path leads to a file. -/
def isFile (tree : FileTree) (path : String) : Bool :=
  match tree.find path with
  | .ok (.file _) => true
  | _ => false

/-- Puts a node at a path from the root, in place of the one there. -/
def set (tree : FileTree) (path : List String) (node : FileNode) : FileTree :=
  ⟨(path, node) :: tree.nodes.filter (·.1 != path)⟩

/-- Makes a directory unless there is a node already. -/
def ensureDirectory (tree : FileTree) (path : List String) : FileTree :=
  if (tree.node? path).isSome then tree else tree.set path .directory

/-- The path from the root after one more part of a path that is to be created. -/
def extend (path : List String) (part : String) : List String :=
  if part = "" || part = "." then path
  else if part = ".." then path.dropLast
  else path ++ [part]

/-- Makes the directories along the parts of a path, those left again by a step back included, and
gives the path from the root at which the parts end. -/
def enter (tree : FileTree) (parts : List String) : FileTree × List String :=
  parts.foldl (fun (tree, path) part =>
    let path := extend path part
    (tree.ensureDirectory path, path)) (tree, [])

/-- Makes a directory and those around it. -/
def makeDirectory (tree : FileTree) (path : String) : FileTree :=
  (tree.enter (path.splitOn "/")).1

/-- Writes a file and makes the directories around it. -/
def write (tree : FileTree) (path : String) (content : List UInt8) : FileTree :=
  let parts := path.splitOn "/"
  let (tree, directory) := tree.enter parts.dropLast
  tree.set (extend directory (parts.getLast?.getD "")) (.file content)

end FileTree

/-- The path of a file below a directory; a file that starts with a slash stands for itself. -/
def joinPath (base file : String) : String :=
  if file.toList.head? = some '/' || base.isEmpty then file
  else if base.toList.getLast? = some '/' then base ++ file
  else base ++ "/" ++ file

/-- What follows the last point in the last part of a path, if something precedes that point. -/
def pathExtension? (path : String) : Option String :=
  let reversed := path.toList.reverse.takeWhile (· != '/')
  match reversed.dropWhile (· != '.') with
  | '.' :: _ :: _ => some (String.ofList (reversed.takeWhile (· != '.')).reverse)
  | _ => none

end ClassLoading
