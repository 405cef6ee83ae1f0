import Assembler.Command.Path
import Assembler.Text.Utf8
/-!
# Files

What the command asks of the machine it runs on, and a machine that is only a value: the files on
its disk, and what has been written to the terminal.
-/

namespace Assembler

/-- Why a file was not read or written. -/
inductive FileFault
  | notFound | isDirectory | notDirectory | nameTooLong | tooManyLinks | nulInName | notUtf8
  | other (message : String)
  deriving DecidableEq, Repr, Inhabited

namespace FileFault

def message : FileFault → String
  | notFound => "No such file or directory (os error 2)"
  | isDirectory => "Is a directory (os error 21)"
  | notDirectory => "Not a directory (os error 20)"
  | nameTooLong => "File name too long (os error 36)"
  | tooManyLinks => "Too many levels of symbolic links (os error 40)"
  | nulInName => "file name contained an unexpected NUL byte"
  | notUtf8 => "stream did not contain valid UTF-8"
  | other message => message

end FileFault

/-- A machine with files, a terminal and a clock. -/
class Machine (m : Type → Type) where
  read : String → m (Except FileFault (List UInt8))
  write : String → List UInt8 → m (Except FileFault Unit)
  /-- Adds to the end of a file, which is made if it is not there. -/
  append : String → List UInt8 → m (Except FileFault Unit)
  out : String → m Unit
  err : String → m Unit
  time : m Nat

/-! ## Disks -/

/-- What a name stands for, other than a directory. -/
inductive Entry
  /-- A file, by its number; names with one number are names of one file. -/
  | file (id : Nat)
  /-- A path to go on along in place of the name. -/
  | link (target : String)
  deriving DecidableEq, Repr, Inhabited

/-- What a file is opened for. -/
inductive Access
  | read | write
  deriving DecidableEq, Repr, Inhabited

/-- Files, links and directories by the names on the way to them from the root. -/
structure Disk where
  entries : List (List String × Entry) := []
  /-- What is in the files, by their numbers; in one that is not listed there is nothing. -/
  contents : List (Nat × List UInt8) := []
  /-- Directories, with or without something in them; one that an entry is in need not be listed. -/
  directories : List (List String) := []
  /-- What may not be opened, be it there or not, and why. -/
  refusals : List ((Access × List String) × FileFault) := []
  deriving DecidableEq, Repr, Inhabited

namespace Disk

/-- The directory that paths start from if they do not start from the root. No path can spell its
name, so only steps up and down again lead back into it. -/
def workingDirectory : List String := ["tmp", ""]

/-- A disk with nothing but files in the working directory, none of which has two names. -/
def ofFiles (files : List (String × List UInt8)) : Disk where
  entries := files.zipIdx.map fun ((path, _), id) => (workingDirectory ++ Path.parts path, .file id)
  contents := files.zipIdx.map fun ((_, content), id) => (id, content)

def find? (d : Disk) (names : List String) : Option Entry := d.entries.lookup names

def content (d : Disk) (id : Nat) : List UInt8 := (d.contents.lookup id).getD []

def refusal? (d : Disk) (access : Access) (names : List String) : Option FileFault := d.refusals.lookup (access, names)

def isDirectory (d : Disk) (names : List String) : Bool :=
  names.isPrefixOf workingDirectory
    || d.directories.any (fun directory => names.isPrefixOf directory)
    || d.entries.any fun (entry, _) => names.isPrefixOf entry && names.length < entry.length

/-! ## Paths -/

/-- What a path leads to, once no link is left to be followed. -/
inductive Target
  | file (names : List String) (id : Nat)
  | directory
  /-- Nothing yet, in a directory that is there. -/
  | nothing (names : List String)
  /-- No directory, though a slash after the name says so; the fault is what keeps it from being read. -/
  | slashed (fault : FileFault)
  deriving DecidableEq, Repr

/-- What comes of a name that leads no further; after it there may be no more than a slash. -/
def blocked (fault : FileFault) (rest : List String) : Except FileFault Target :=
  if rest ≠ [] ∧ rest.all (·.isEmpty) then .ok (.slashed fault) else .error fault

/-- What comes of a name, given what it stands for and how to go on along a link. -/
def enter (follow : String → Except FileFault Target) (names rest : List String) : Option Entry → Except FileFault Target
  | some (.link target) =>
    match follow target with
    | .error fault => blocked fault rest
    | .ok found => .ok found
  | some (.file id) => if rest = [] then .ok (.file names id) else blocked .notDirectory rest
  | none => if rest = [] then .ok (.nothing names) else blocked .notFound rest

/-- Goes on from a directory along the parts of a path, given how to go on along those of a link and what comes after it;
a step up from the root stays there. -/
def walkWith (d : Disk) (follow : List String → List String → Except FileFault Target) :
    (here : List String) → List String → Except FileFault Target
  | _, [] => .ok .directory
  | here, name :: rest =>
    if name = "" ∨ name = "." then walkWith d follow here rest
    else if name = ".." then walkWith d follow here.dropLast rest
    else
      let there := here ++ [name]
      if d.isDirectory there then walkWith d follow there rest
      else if 255 < name.utf8ByteSize then blocked .nameTooLong rest
      else
        let onward (target : String) := follow (if target.startsWith "/" then [] else here) (Path.parts target ++ rest)
        enter onward there rest (d.find? there)

/-- Goes on from a directory along the parts of a path, following no more than so many links. -/
def walk (d : Disk) : (links : Nat) → (here parts : List String) → Except FileFault Target
  | 0 => d.walkWith fun _ _ => .error .tooManyLinks
  | links + 1 => d.walkWith (walk d links)

/-- As many links as there may be on a way. -/
def maxLinks : Nat := 40

/-- Where a path leads. -/
def locate (d : Disk) (path : String) : Except FileFault Target :=
  if path.toList.contains '\x00' then .error .nulInName
  else if path.isEmpty then .error .notFound
  else if 4096 ≤ path.utf8ByteSize then .error .nameTooLong
  else d.walk maxLinks (if path.startsWith "/" then [] else workingDirectory) (Path.parts path)

/-! ## Reading and changing -/

def read (d : Disk) (path : String) : Except FileFault (List UInt8) :=
  match d.locate path with
  | .error fault => .error fault
  | .ok .directory => .error .isDirectory
  | .ok (.nothing _) => .error .notFound
  | .ok (.slashed fault) => .error fault
  | .ok (.file names id) =>
    match d.refusal? .read names with
    | some fault => .error fault
    | none => .ok (d.content id)

/-- A number that no file has had. -/
def fresh (d : Disk) : Nat :=
  let used := d.entries.filterMap fun (_, entry) =>
    match entry with
    | .file id => some id
    | .link _ => none
  (used ++ d.contents.map (·.1)).foldr (fun id bound => max (id + 1) bound) 0

/-- The number of the file that has some names, or will have them once it is made. -/
def idAt (d : Disk) (names : List String) : Nat :=
  match d.find? names with
  | some (.file id) => id
  | _ => d.fresh

/-- The disk with other content in the file that has some names, which is made if it is not there. -/
def put (d : Disk) (names : List String) (content : List UInt8) : Disk :=
  { d with
    entries := (names, .file (d.idAt names)) :: d.entries.filter fun (entry, _) => entry != names
    contents := (d.idAt names, content) :: d.contents.filter fun (id, _) => id != d.idAt names }

/-- Changes a file from the content it has, none if it is not there. -/
def change (d : Disk) (path : String) (f : List UInt8 → List UInt8) : Except FileFault Disk :=
  match d.locate path with
  | .error fault => .error fault
  | .ok .directory | .ok (.slashed _) => .error .isDirectory
  | .ok (.nothing names) | .ok (.file names _) =>
    match d.refusal? .write names with
    | some fault => .error fault
    | none => .ok (d.put names (f (d.content (d.idAt names))))

/-- The content of a file, by its names. -/
def contentAt? (d : Disk) (names : List String) : Option (List UInt8) :=
  match d.find? names with
  | some (.file id) => some (d.content id)
  | _ => none

/-- The files in the working directory that are new or have other content than before. -/
def changedSince (d before : Disk) : List (String × List UInt8) :=
  d.entries.filterMap fun (names, _) => do
    let content ← d.contentAt? names
    if workingDirectory.isPrefixOf names && before.contentAt? names != some content then
      some ("/".intercalate (names.drop workingDirectory.length), content)
    else none

end Disk

/-! ## Desks -/

/-- A disk, a terminal and a clock. -/
structure Desk where
  disk : Disk := {}
  out : String := ""
  err : String := ""
  /-- What the clock will say, as often as it is looked at. -/
  clock : List Nat := []
  deriving DecidableEq, Repr, Inhabited

namespace Desk

def change (path : String) (f : List UInt8 → List UInt8) : StateM Desk (Except FileFault Unit) :=
  modifyGet fun desk =>
    match desk.disk.change path f with
    | .error fault => (.error fault, desk)
    | .ok disk => (.ok (), { desk with disk })

end Desk

instance : Machine (StateM Desk) where
  read path := return (← get).disk.read path
  write path bytes := Desk.change path fun _ => bytes
  append path bytes := Desk.change path (· ++ bytes)
  out s := modify fun desk => { desk with out := desk.out ++ s }
  err s := modify fun desk => { desk with err := desk.err ++ s }
  time := modifyGet fun desk => (desk.clock.headD 0, { desk with clock := desk.clock.tail })

end Assembler
