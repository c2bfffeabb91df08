import TrioScore.Command.Path
import TrioScore.Smf.Field
import TrioScore.Text.Utf8

/-!
# Directories

The files and folders that a command finds, each at one place. All further ways to them are links,
which stand for other places: symbolic links, second names of a file, and the name that the working
directory has from outside. So two paths may lead to one file.

A path leads through folders that are there, and through links; its last name may be new when a file
is written. A path that is no name for files at all is refused before anything is looked up.
-/

namespace TrioScore

/-- The names that lead to a place from the working directory. -/
abbrev Place := List Text

inductive Entry where
  | folder
  | file (content : Bytes)
  | link (target : Place)
deriving DecidableEq

structure Directory where
  entries : List (Place × Entry)
deriving DecidableEq

namespace Directory

def empty : Directory := ⟨[]⟩

def above : Text := ".."

/-- The working directory, the folders above it, and the root. -/
def isSurrounding (place : Place) : Bool :=
  place.all (· = above) || place = [[Path.stroke]]

def find? (directory : Directory) (place : Place) : Option Entry :=
  if isSurrounding place then some .folder else directory.entries.lookup place

def put (directory : Directory) (place : Place) (content : Bytes) : Directory :=
  if directory.entries.any fun entry => entry.1 = place then
    ⟨directory.entries.map fun entry =>
      if entry.1 = place then (place, .file content) else entry⟩
  else ⟨directory.entries ++ [(place, .file content)]⟩

def next (place : Place) (name : Text) : Place :=
  if name = Path.here then place
  else if name != above then place ++ [name]
  else if place.all (· = above) then place ++ [above]
  else if isSurrounding place then place
  else place.dropLast

def step (directory : Directory) (place : Place) (name : Text) : Except FileFault Place :=
  match directory.find? place with
  | none => .error .missing
  | some .folder => if 255 < name.utf8.length then .error .nameTooLong else .ok (next place name)
  | some _ => .error .notDirectory

def linkLimit : Nat := 40

/-- Steps up to the first link. From there they are taken anew, along the names that the link
stands for and those that are left. -/
def walkUntil (directory : Directory) (links : Nat)
    (anew : List Text → Except FileFault (Nat × Place)) :
    Place → List Text → Except FileFault (Nat × Place)
  | place, [] => .ok (links, place)
  | place, name :: names => do
    let reached ← directory.step place name
    match directory.find? reached with
    | some (.link target) => anew (target ++ names)
    | _ => directory.walkUntil links anew reached names

/-- The place that steps lead to when so many links may be followed, and how many may still be. -/
def walk (directory : Directory) : Nat → Place → List Text → Except FileFault (Nat × Place)
  | 0 => directory.walkUntil 0 fun _ => .error .tooManyLinks
  | links + 1 => directory.walkUntil (links + 1) (directory.walk links [])

def start (t : Text) : Place := if (Path.rootOf t).isEmpty then [] else [[Path.stroke]]

/-- The names in a written path, as they are found again. -/
def names (t : Text) : List Text := Path.names t.asFound

def endsAsFolder (t : Text) : Bool := t.getLast? = some Path.stroke

/-- A path can be looked up if it has bytes, and none of them is zero. -/
def check (t : Text) : Except Fault Unit :=
  match t.nameGap? with
  | some gap => .error (.outsideUtf8 gap)
  | none => if t.any fun c => c.value = 0 then .error .zeroInPath else .ok ()

def checkLength (t : Text) : Except FileFault Unit :=
  if t.isEmpty then .error .missing
  else if 4095 < t.utf8.length then .error .nameTooLong
  else .ok ()

def withPath {A : Type} (t : Text) (found : Except FileFault A) : Except Fault A := do
  check t
  (checkLength t >>= fun _ => found).mapError fun fault => .file fault t

/-- What a written path leads to. What ends as a folder has to be one. -/
def look (directory : Directory) (t : Text) : Except Fault Entry := withPath t do
  let (_, place) ← directory.walk linkLimit (start t) (names t)
  match directory.find? place with
  | some .folder => return .folder
  | some (.file content) => if endsAsFolder t then throw .notDirectory else return .file content
  | _ => throw .missing

/-- The place where a file can be written. The last name is written into a folder, which the names
in front of it lead to. -/
def writable (directory : Directory) (t : Text) : Except Fault Place := withPath t do
  let (links, folder) ← directory.walk linkLimit (start t) ((names t).dropLast ++ [Path.here])
  match (names t).getLast?, endsAsFolder t with
  | none, _ | _, true => throw .isDirectory
  | some name, false =>
    let (_, place) ← directory.walk links folder [name]
    if directory.find? place = some .folder then throw .isDirectory
    return place

def write (directory : Directory) (t : Text) (content : Bytes) : Except Fault Directory := do
  return directory.put (← directory.writable t) content

def changes (before after : Directory) : List (Place × Bytes) :=
  after.entries.filterMap fun (place, entry) =>
    match entry with
    | .file content => if before.find? place = some entry then none else some (place, content)
    | _ => none

/-- The directory after a file has been opened and then written with contents that may fail to be
made; the file is empty then. -/
def save (directory : Directory) (t : Text) (content : Except Fault Bytes) :
    Directory × Except Fault Unit :=
  match directory.write t [] with
  | .error fault => (directory, .error fault)
  | .ok opened =>
    match content with
    | .error fault => (opened, .error fault)
    | .ok bytes =>
      match opened.write t bytes with
      | .error fault => (opened, .error fault)
      | .ok written => (written, .ok ())

end Directory
end TrioScore
