import InverseTelecine.Text.Split

namespace InverseTelecine.CommandLine

open Text

inductive PathError where
  | missing | noDevice | isFolder | notFolder | nameTooLong | deviceFull
deriving DecidableEq, Repr

def PathError.message : PathError → String
  | missing => "No such file or directory (os error 2)"
  | noDevice => "No such device or address (os error 6)"
  | notFolder => "Not a directory (os error 20)"
  | isFolder => "Is a directory (os error 21)"
  | deviceFull => "No space left on device (os error 28)"
  | nameTooLong => "File name too long (os error 36)"

/-- Where a path leads: to a folder, to a file, or to a device. The folder of the command lies in one of
the folders that every system has in its root; of what else is in those only the devices are known, and
the folder of the running process with the streams that it has open. -/
inductive Place where
  | here | root | system | devices | processes | process | streams
  | file (name : String)
  | fileOutside
  | null
  | zero
  | full
  | terminal
  | stdout | stderr
deriving DecidableEq, Repr

namespace Place

def isFolder : Place → Bool
  | here | root | system | devices | processes | process | streams => true
  | file _ | fileOutside | null | zero | full | terminal | stdout | stderr => false

def parent : Place → Place
  | here => system
  | streams => process
  | process => processes
  | _ => root

end Place

structure Folder where
  files : List (String × List UInt8)
deriving DecidableEq, Repr

namespace Folder

def bytes? (f : Folder) (name : String) : Option (List UInt8) :=
  (f.files.find? fun file => file.1 = name).map (·.2)

def write (f : Folder) (name : String) (bytes : List UInt8) : Folder :=
  ⟨(name, bytes) :: f.files.filter fun file => file.1 ≠ name⟩

def systemFolders : List String :=
  ["bin", "boot", "etc", "home", "lib", "media", "mnt", "opt", "root", "run", "sbin", "srv", "sys",
    "tmp", "usr", "var"]

def rootFolder? (name : String) : Option Place :=
  if name = "dev" then some .devices
  else if name = "proc" then some .processes
  else if name ∈ systemFolders then some .system
  else none

def device? : String → Option Place
  | "null" | "stdin" => some .null
  | "zero" | "random" | "urandom" => some .zero
  | "full" => some .full
  | "tty" => some .terminal
  | "stdout" => some .stdout
  | "stderr" => some .stderr
  | "fd" => some .streams
  | "shm" | "pts" => some .system
  | _ => none

def process? : String → Option Place
  | "cwd" => some .here
  | "root" => some .root
  | "fd" => some .streams
  | _ => none

def stream? : String → Option Place
  | "0" => some .null
  | "1" => some .stdout
  | "2" => some .stderr
  | _ => none

def child? (f : Folder) (place : Place) (name : String) : Option Place :=
  match place with
  | .here => if (f.bytes? name).isSome then some (.file name) else none
  | .root => rootFolder? name
  | .devices => device? name
  | .processes => if name = "self" then some .process else none
  | .process => process? name
  | .streams => stream? name
  | _ => none

def greatestName : Nat := 255

def greatestPath : Nat := 4095

def step (f : Folder) (place : Place) (name : List Char) : Except PathError Place :=
  if ¬ place.isFolder then .error .notFolder
  else if name = ['.'] then .ok place
  else if name = ['.', '.'] then .ok place.parent
  else if greatestName < (String.ofList name).utf8ByteSize then .error .nameTooLong
  else match f.child? place (String.ofList name) with
    | some found => .ok found
    | none => .error .missing

def walk (f : Folder) : Place → List (List Char) → Except PathError Place
  | place, [] => .ok place
  | place, name :: names =>
    match f.step place name with
    | .error e => .error e
    | .ok next => f.walk next names

def names (path : List Char) : List (List Char) := (splitAll '/' path).filter (· ≠ [])

def origin (path : List Char) : Place := if path.head? = some '/' then .root else .here

def asksForFolder (path : List Char) : Bool := path.getLast? = some '/'

def find (f : Folder) (path : String) : Except PathError Place :=
  if greatestPath < path.utf8ByteSize then .error .nameTooLong
  else match f.walk (origin path.toList) (names path.toList) with
    | .error e => .error e
    | .ok place =>
      if asksForFolder path.toList && !place.isFolder then .error .notFolder else .ok place

def createIn (f : Folder) (place : Place) (name : List Char) : Except PathError Place :=
  match f.step place name with
  | .ok .terminal => .error .noDevice
  | .ok found => if found.isFolder then .error .isFolder else .ok found
  | .error .missing =>
    match place with
    | .here => .ok (.file (String.ofList name))
    | .processes | .process | .streams => .error .missing
    | _ => .ok .fileOutside
  | .error e => .error e

def create (f : Folder) (path : String) : Except PathError Place :=
  if greatestPath < path.utf8ByteSize then .error .nameTooLong
  else match f.walk (origin path.toList) (names path.toList).dropLast, (names path.toList).getLast? with
    | .error e, _ => .error e
    | .ok _, none => .error .isFolder
    | .ok place, some name =>
      if place.isFolder && asksForFolder path.toList then .error .isFolder else f.createIn place name

theorem walk_file_cons (f : Folder) (file : String) (name : List Char) (names : List (List Char)) :
    f.walk (.file file) (name :: names) = .error .notFolder := rfl

theorem bytes?_write (f : Folder) (name : String) (bytes : List UInt8) :
    (f.write name bytes).bytes? name = some bytes := by
  simp [write, bytes?]

end Folder

end InverseTelecine.CommandLine
