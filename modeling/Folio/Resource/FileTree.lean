import Folio.Resource.Provider

/-!
A file system as a tree of files, directories and symbolic links, with the walk that follows a path
through it. A walk ends in a canonical path, one without links and upward steps; it fails on a
missing name, on a file in the place of a directory, on a name that is too long and on too many
links. What stands in the tree can be read.

A base directory serves what lies below it: a path that leads anywhere is compared with the base in
canonical form, and one that leads nowhere may not go upwards.
-/
namespace Folio.Resource

inductive Entry where
  | file (data : Bytes)
  | directory (entries : List (String × Entry))
  | link (target : String)

namespace Entry

def child? (name : String) : Entry → Option Entry
  | directory entries => (entries.find? (·.1 == name)).map (·.2)
  | _ => none

/-- The entry that a path of plain names leads to. -/
def at? : List String → Entry → Option Entry
  | [], e => some e
  | name :: rest, e => (e.child? name).bind (at? rest)

def isFile : Entry → Bool
  | file _ => true
  | _ => false

end Entry

inductive PathError where
  | missing
  | notDirectory
  | isDirectory
  | tooManyLinks
  | nameTooLong
  /-- A path cannot hold the character nought. -/
  | malformed
  deriving DecidableEq, Repr

/-- One step of a path. -/
inductive Step where
  /-- To the same place, which must be a directory. -/
  | stay
  | up
  | down (name : String)
  deriving DecidableEq, Repr

/-- The steps of a path; empty names and single points stay where they are. -/
def stepsOf (path : String) : List Step :=
  (path.toList.splitOn '/').map fun part =>
    if part == [] || part == ['.'] then .stay
    else if part == ['.', '.'] then .up
    else .down (String.ofList part)

def isAbsolute (path : String) : Bool := path.toList.head? == some '/'

def startOf (path : String) (here : List String) : List String :=
  if isAbsolute path then [] else here

/-- A name takes no more bytes. -/
def maxNameSize : Nat := 255

/-- A path that is opened takes no more bytes. -/
def maxPathSize : Nat := 4095

/-- As many links may be followed in one walk. -/
def maxLinks : Nat := 40

/-- Takes steps from the directory `here` as far as the first link, which `follow` goes on from. -/
def walkTo (root : Entry) (follow : List String → List Step → Except PathError (List String)) :
    List String → List Step → Except PathError (List String)
  | here, [] => .ok here
  | here, step :: rest =>
    match root.at? here with
    | some (.directory _) =>
      match step with
      | .stay => walkTo root follow here rest
      | .up => walkTo root follow here.dropLast rest
      | .down name =>
        if maxNameSize < name.utf8ByteSize then .error .nameTooLong
        else
          match root.at? (here ++ [name]) with
          | none => .error .missing
          | some (.link target) => follow (startOf target here) (stepsOf target ++ rest)
          | some _ => walkTo root follow (here ++ [name]) rest
    | some _ => .error .notDirectory
    | none => .error .missing

/-- The canonical path that steps lead to from the directory `here`, the root being empty, if so
many links may be followed. -/
def walk (root : Entry) : Nat → List String → List Step → Except PathError (List String)
  | 0 => walkTo root fun _ _ => .error .tooManyLinks
  | links + 1 => walkTo root (walk root links)

/-- Follows `path` from `here` to what stands there. The empty path leads nowhere. -/
def canonical (root : Entry) (here : List String) (path : String) :
    Except PathError (List String) :=
  if path.toList.contains '\x00' then .error .malformed
  else if path.isEmpty then .error .missing
  else walk root maxLinks (startOf path here) (stepsOf path)

def readFile (root : Entry) (path : List String) : Except PathError Bytes :=
  match root.at? path with
  | some (.file data) => .ok data
  | some _ => .error .isDirectory
  | none => .error .missing

/-- Puts `e` at the end of a path of names, whose other names must be directories. -/
def Entry.put? (e : Entry) : List String → Entry → Option Entry
  | [], _ => some e
  | name :: rest, .directory entries =>
    match entries.find? (·.1 == name) with
    | some (_, child) => (e.put? rest child).map fun child =>
      .directory (entries.map fun entry => if entry.1 == name then (name, child) else entry)
    | none => if rest.isEmpty then some (.directory (entries ++ [(name, e)])) else none
  | _ :: _, _ => none

/-- Follows steps from the directory `here` and makes the directories that are missing; a file in
the way is a fault. The result is the tree and the directory where the steps end. -/
def createDirectories (root : Entry) (here : List String) :
    List Step → Except PathError (Entry × List String)
  | [] => .ok (root, here)
  | .stay :: rest => createDirectories root here rest
  | .up :: rest => createDirectories root here.dropLast rest
  | .down name :: rest =>
    if maxNameSize < name.utf8ByteSize then .error .nameTooLong
    else
      let below := here ++ [name]
      match root.at? below with
      | some (.directory _) => createDirectories root below rest
      | some _ => .error .notDirectory
      | none =>
        match (Entry.directory []).put? below root with
        | some grown => createDirectories grown below rest
        | none => .error .missing

/-- Makes an empty file in the directory `above`, or empties the file that is there. -/
def createFile (root : Entry) (above : List String) (name : String) : Except PathError Entry :=
  if maxNameSize < name.utf8ByteSize then .error .nameTooLong
  else
    match root.at? (above ++ [name]) with
    | some (.directory _) => .error .isDirectory
    | _ =>
      match (Entry.file []).put? (above ++ [name]) root with
      | some grown => .ok grown
      | none => .error .notDirectory

/-- The tree with `e` at the end of a path, below directories that are made where they are
missing; the tree as it is where that cannot be. -/
def Entry.place (e : Entry) (path : List String) (root : Entry) : Entry :=
  match createDirectories root [] (path.dropLast.map .down) with
  | .ok (grown, _) => (e.put? path grown).getD root
  | .error _ => root

/-- What stands in front of the first `://`. -/
def beforeScheme? : List Char → Option (List Char)
  | ':' :: '/' :: '/' :: _ => some []
  | c :: cs => (beforeScheme? cs).map (c :: ·)
  | [] => none

/-- A path behind that of a directory. -/
def joined (base path : String) : String :=
  if base.isEmpty || base.toList.getLast? == some '/' then base ++ path else base ++ "/" ++ path

/-- Where a path may be followed to. -/
inductive Target where
  | canonical (names : List String)
  /-- A path that is followed only when it is read. -/
  | written (path : String)

/-- The canonical path that reading leads to. -/
def Target.follow (root : Entry) (here : List String) : Target → Except PathError (List String)
  | canonical names => .ok names
  | written path =>
    if maxPathSize < path.utf8ByteSize then .error .nameTooLong
    else Resource.canonical root here path

/-- Images below a directory. Its path is followed from the directory `here`. -/
structure BaseDirectory where
  root : Entry
  here : List String
  base : String

/-- Images below the directory of these names. -/
structure Folder where
  root : Entry
  base : List String

namespace Folder

/-- The part in front of `://`, if it can name a scheme. -/
def urlScheme? (path : String) : Option String :=
  match beforeScheme? path.toList with
  | some (c :: cs) =>
    if c.isAlpha && cs.all (fun d => d.isAlphanum || d == '+' || d == '-' || d == '.') then
      some (String.ofList (c :: cs))
    else none
  | _ => none

/-- What becomes of a path when the base and the path behind it have been followed as far as they
lead: it may go to what lies below the base, or, if there is nothing to compare, anywhere that takes
no step upwards. -/
def permit (base : Except PathError (List String)) (joined path : String)
    (found : Except PathError (List String)) : Except ResourceError Target :=
  match urlScheme? path with
  | some scheme =>
    .error (.loadFailed path
      ("'" ++ scheme ++ "' URLs need a ResourceProvider that can fetch them"))
  | none =>
    if isAbsolute path then .error (.accessDenied path)
    else
      match found, base with
      | .ok found, .ok base =>
        if base.isPrefixOf found then .ok (.canonical found) else .error (.accessDenied path)
      | _, _ =>
        if (stepsOf path).contains .up then .error (.accessDenied path) else .ok (.written joined)

end Folder

namespace BaseDirectory

/-- Follows a path from where the base directory is followed from. -/
def follow (b : BaseDirectory) (path : String) : Except PathError (List String) :=
  canonical b.root b.here path

def resolve (b : BaseDirectory) (path : String) : Except ResourceError Target :=
  Folder.permit (b.follow b.base) (joined b.base path) path (b.follow (joined b.base path))

def load (b : BaseDirectory) (path : String) : Except ResourceError Bytes := do
  let target ← b.resolve path
  match (target.follow b.root b.here).bind (readFile b.root) with
  | .ok data => .ok data
  | .error .missing => .error (.notFound path)
  | .error _ => .error (.loadFailed path "the path leads to no file")

/-- Is there a file at the end of a path? -/
def holds (b : BaseDirectory) (path : String) : Bool :=
  match b.resolve path with
  | .ok target =>
    match target.follow b.root b.here with
    | .ok names => ((b.root.at? names).map Entry.isFile).getD false
    | .error _ => false
  | .error _ => false

def provider (b : BaseDirectory) : Provider where
  name := "FilesystemResourceProvider"
  load := b.load
  exists? := b.holds

end BaseDirectory

namespace Folder

def directory (folder : Folder) : BaseDirectory :=
  ⟨folder.root, [], "/" ++ String.intercalate "/" folder.base⟩

def provider (folder : Folder) : Provider := folder.directory.provider

end Folder

end Folio.Resource
