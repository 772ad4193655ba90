/-
  FeatureCut/FileTree.lean
  ========================
  **Files below a root directory.**

  A tree holds the files and directories below a root.  A path is followed part
  by part: every part but the last has to be a directory, empty parts and `.`
  stay where they are, and `..` goes up.  Above the root nothing is known but
  directories.  A path with a zero character is refused as a whole.
-/
import FeatureCut.Error

namespace FeatureCut

/-- The files below a root with their bytes, and directories that need not hold
    any.  Places are lists of names. -/
structure FileTree where
  files : List (List String × ByteArray)
  folders : List (List String)

/-- Where a path leads; `outside` is a directory that is not below the root. -/
inductive Location where
  | folder (place : List String)
  | file (bytes : ByteArray)
  | outside

/-- Whether a place is a directory: it is one by itself, or something lies in
    it. -/
def FileTree.isFolder (t : FileTree) (place : List String) : Bool :=
  place.isEmpty || t.folders.any (fun folder => place.isPrefixOf folder) ||
    t.files.any fun file => place.isPrefixOf file.1 && place.length < file.1.length

def maxNameBytes : Nat := 255

def FileTree.enter (t : FileTree) (part : String) (here : Location) :
    Except ReadFault Location :=
  match here with
  | .file _ => .error .notDirectory
  | .outside =>
    if part = "" || part = "." || part = ".." then .ok .outside
    else if maxNameBytes < part.utf8ByteSize then .error .nameTooLong
    else .error .notFound
  | .folder place =>
    if part = "" || part = "." then .ok (.folder place)
    else if part = ".." then .ok (if place.isEmpty then .outside else .folder place.dropLast)
    else if maxNameBytes < part.utf8ByteSize then .error .nameTooLong
    else
      match t.files.find? fun file => file.1 = place ++ [part] with
      | some file => .ok (.file file.2)
      | none =>
        if t.isFolder (place ++ [part]) then .ok (.folder (place ++ [part]))
        else .error .notFound

def FileTree.follow (t : FileTree) : Location → List String → Except ReadFault Location
  | here, [] => .ok here
  | here, part :: rest =>
    match t.enter part here with
    | .ok next => t.follow next rest
    | .error fault => .error fault

def pathParts (path : String) : List String := (path.toList.splitOn '/').map String.ofList

/-- Where a path leads that starts at the root, or outside if it is absolute. -/
def FileTree.locate (t : FileTree) (path : String) : Except ReadFault Location :=
  if path.toList.contains (Char.ofNat 0) then .error .invalidName
  else
    match pathParts path with
    | "" :: part :: rest => t.follow .outside (part :: rest)
    | parts => t.follow (.folder []) parts

def FileTree.isFile (t : FileTree) (path : String) : Bool :=
  match t.locate path with
  | .ok (.file _) => true
  | _ => false

def FileTree.read (t : FileTree) (path : String) : Except ReadFault String :=
  match t.locate path with
  | .error fault => .error fault
  | .ok (.file bytes) =>
    match String.fromUTF8? bytes with
    | some text => .ok text
    | none => .error .invalidText
  | .ok _ => .error .isDirectory

/-- The names on a path that only leads down. -/
def placeOf (path : String) : List String :=
  (pathParts path).filter fun part => part != "" && part != "."

/-- The tree with the given files, where a file without bytes is a directory. -/
def FileTree.ofPaths (entries : List (String × Option ByteArray)) : FileTree :=
  ⟨entries.filterMap fun entry => entry.2.map fun bytes => (placeOf entry.1, bytes),
    entries.filterMap fun entry => if entry.2.isNone then some (placeOf entry.1) else none⟩

end FeatureCut
