/-!
# Files

What a command needs of the files around it, so that it can run on any kind of them.

* `FileProblem`, `FileError`: why a file cannot be read or written, and the wording;
* `FileStore`: files that are read and written in a monad;
* `Folder`: files kept in memory; `Folder.read`, `Folder.write`, `Folder.store`.
-/

namespace EvmFlow

/-- Why a file cannot be read or written. -/
inductive FileProblem where
  | missing
  | noFolder
  | isFolder
  | nameTooLong
  | badName
  | stated (text : String)
deriving DecidableEq

/-- The wording of a problem. -/
def FileProblem.message : FileProblem → String
  | missing => "no such file or directory"
  | noFolder => "not a directory"
  | isFolder => "is a directory"
  | nameTooLong => "file name too long"
  | badName => "invalid argument"
  | stated text => text

/-- A file that cannot be read or written: what was tried, on which path, and why it failed. -/
structure FileError where
  action : String
  path : String
  problem : FileProblem
deriving DecidableEq

/-- The wording of an error. -/
def FileError.message (e : FileError) : String := s!"{e.action} {e.path}: {e.problem.message}"

/-- Files that are read and written in the monad `m`. -/
structure FileStore (m : Type → Type) where
  read : String → m (Except FileError String)
  write : String → String → m (Except FileError Unit)

/-! ## Paths -/

/-- A path: whether it starts at the root, its names, and whether a slash ends it. -/
structure Pathname where
  absolute : Bool
  names : List String
  slash : Bool
deriving DecidableEq

/-- The longest name, in bytes. -/
def Pathname.maxName : Nat := 255

/-- The longest path, in bytes. -/
def Pathname.maxPath : Nat := 4095

/-- The path that a text spells: slashes divide the names, several count as one. -/
def Pathname.parse (path : String) : Except FileProblem Pathname :=
  let cs := path.toList
  if cs.contains (Char.ofNat 0) then .error .badName
  else if cs.isEmpty then .error .missing
  else if maxPath < path.utf8ByteSize then .error .nameTooLong
  else .ok {
    absolute := cs.head? == some '/'
    names := (path.splitOn "/").filter (· ≠ "")
    slash := cs.getLast? == some '/' }

/-! ## Folders in memory -/

/-- The files of a folder. The path of a file is the list of its names, and a folder in the folder
is there as long as a file is in it. -/
structure Folder where
  files : List (List String × String) := []

/-- A place to look names up: the folder or one in it; the root and the devices in it, of which one
is known, which is empty and keeps nothing; or somewhere else around the folder, where nothing is
known but that there are folders above. -/
inductive FolderPlace where
  | inside (path : List String)
  | root
  | devices
  | outside

namespace Folder

/-- The folder with files of given names. -/
def ofFiles (files : List (String × String)) : Folder :=
  ⟨files.map fun (name, content) => ((name.splitOn "/").filter (· ≠ ""), content)⟩

/-- The content of the file at a path. -/
def content? (d : Folder) (path : List String) : Option String := d.files.lookup path

/-- Whether a path is that of the folder or of a folder in it. -/
def isFolder (d : Folder) (path : List String) : Bool :=
  path.isEmpty || d.files.any fun (file, _) => path.length < file.length && path.isPrefixOf file

/-- Goes from a place to the folder of the given name. -/
def enter (d : Folder) (place : FolderPlace) (name : String) : Except FileProblem FolderPlace :=
  match place, name with
  | place, "." => .ok place
  | .inside [], ".." | .outside, ".." => .ok .outside
  | .inside path, ".." => .ok (.inside path.dropLast)
  | .root, ".." | .devices, ".." => .ok .root
  | place, name =>
    if Pathname.maxName < name.utf8ByteSize then .error .nameTooLong
    else match place with
      | .outside => .error .missing
      | .root => if name = "dev" then .ok .devices else .error .missing
      | .devices => .error (if name = "null" then .noFolder else .missing)
      | .inside path =>
        if d.isFolder (path ++ [name]) then .ok (.inside (path ++ [name]))
        else if (d.content? (path ++ [name])).isSome then .error .noFolder
        else .error .missing

/-- What a path leads to: a folder, the empty device, the place of a file that is there with its
content, or a place at which no file is. -/
inductive Target where
  | folder
  | device
  | file (path : List String) (content : String)
  | free (place : FolderPlace) (name : String)

/-- What the last name of a path leads to, from the place that the others lead to. -/
def target (d : Folder) (place : FolderPlace) (name : String) : Except FileProblem Target :=
  if name = "." ∨ name = ".." then .ok .folder
  else if Pathname.maxName < name.utf8ByteSize then .error .nameTooLong
  else match place with
    | .outside => .ok (.free place name)
    | .root => .ok (if name = "dev" then .folder else .free place name)
    | .devices => .ok (if name = "null" then .device else .free place name)
    | .inside path =>
      if d.isFolder (path ++ [name]) then .ok .folder
      else match d.content? (path ++ [name]) with
        | some content => .ok (.file (path ++ [name]) content)
        | none => .ok (.free place name)

/-- The place that the names of a path lead to, without the last one. -/
def parent (d : Folder) (path : Pathname) : Except FileProblem FolderPlace :=
  path.names.dropLast.foldlM d.enter (if path.absolute then .root else .inside [])

/-- The content of the file at a path, or why there is none. -/
def read (d : Folder) (path : String) : Except FileError String :=
  let failed (problem : FileProblem) : FileError := ⟨"open", path, problem⟩
  let found : Except FileProblem (Bool × Target) := do
    let p ← Pathname.parse path
    let place ← d.parent p
    match p.names.getLast? with
    | none => return (p.slash, .folder)
    | some name => return (p.slash, ← d.target place name)
  match found with
  | .error problem => .error (failed problem)
  | .ok (_, .folder) => .error ⟨"read", path, .isFolder⟩
  | .ok (_, .free _ _) => .error (failed .missing)
  | .ok (true, .file _ _) | .ok (true, .device) => .error (failed .noFolder)
  | .ok (false, .device) => .ok ""
  | .ok (false, .file _ content) => .ok content

/-- The folder with the file at a path written. What is written around the folder is not kept. -/
def write (d : Folder) (path content : String) : Except FileError Folder :=
  let written : Except FileProblem Folder := do
    let p ← Pathname.parse path
    let place ← d.parent p
    match p.names.getLast? with
    | none => throw .isFolder
    | some name =>
      if p.slash then throw .isFolder
      match ← d.target place name with
      | .folder => throw .isFolder
      | .file file _ => return ⟨(file, content) :: d.files.filter (·.1 ≠ file)⟩
      | .free (.inside dir) name => return ⟨(dir ++ [name], content) :: d.files⟩
      | .device | .free _ _ => return d
  written.mapError fun problem => ⟨"open", path, problem⟩

/-- A folder as a store of files. -/
def store : FileStore (StateM Folder) where
  read path := do return (← get).read path
  write path content := do
    match (← get).write path content with
    | .ok d => set d; return .ok ()
    | .error e => return .error e

end Folder

end EvmFlow
