import ClassLoading.Archive.Directory
import ClassLoading.Loader.ClassPath
import ClassLoading.Machine.FileTree

/-!
# Sources of classes

A path on the class path stands for a directory or for an archive; any other path is ignored. The
files of a source are read when they are asked for, from the tree as it is then; the directory of an
archive is that of the time when it was opened, and where the contents of a member start is that of
the time when it was first asked for.
-/

namespace ClassLoading

/-- A directory, or an archive with the members that it listed when it was opened. -/
inductive Source where
  | directory (path : String)
  | archive (path : String) (directory : Archive.Directory)
deriving DecidableEq, Repr

namespace Source

/-- The path that a source was opened by. -/
def name : Source → String
  | directory path => path
  | archive path _ => path

/-- The name of a path is that of an archive. -/
def isArchivePath (path : String) : Bool :=
  pathExtension? path = some "jar" || pathExtension? path = some "zip"

/-- The source at a path, if there is one. -/
def «open» (tree : FileTree) (path : String) : Except LoadError (Option Source) :=
  if tree.isDirectory path then .ok (some (.directory path))
  else if isArchivePath path && tree.isFile path then
    match tree.read path with
    | .error error => .error (.file error)
    | .ok data =>
        match Archive.open? data with
        | some listed => .ok (some (.archive path listed))
        | none => .error .archive
  else .ok none

/-- The content of a file below a directory. -/
def findInDirectory (tree : FileTree) (path file : String) :
    Except LoadError (Option (List UInt8)) :=
  match tree.read (joinPath path file) with
  | .ok content => .ok (some content)
  | .error .notFound => .ok none
  | .error error => .error (.file error)

/-- The content of a member of an archive. -/
def findInArchive (tree : FileTree) (path : String) (listed : Archive.Directory) (file : String) :
    Except LoadError (Option (List UInt8)) :=
  match tree.read path with
  | .ok data => listed.read? data file
  | .error error => .error (.file error)

/-- A source as an entry of a class path. -/
def toEntry (tree : FileTree) (source : Source) : ClassPathEntry where
  name := source.name
  find :=
    match source with
    | directory path => findInDirectory tree path
    | archive path listed => findInArchive tree path listed

/-- The source after it was asked for a file. -/
def afterFind (tree : FileTree) (file : String) : Source → Source
  | directory path => directory path
  | archive path listed =>
      match tree.read path with
      | .ok data => archive path (listed.afterRead data file)
      | .error _ => archive path listed

end Source

end ClassLoading
