import Std.Data.ExtTreeMap
import SyncCircuit.CommandLine.Host

/-!
A disk as a value: a tree of directories and files, and the directory in which a run takes place.
A `Session` is such a disk with all that has been printed, and it is a host.
-/

namespace SyncCircuit

namespace CommandLine

inductive Entry where
  | directory
  | text (content : String)
  /-- A file whose bytes are no text. -/
  | binary
deriving DecidableEq

/-- The names on the way from the root. -/
abbrev Location := List String

structure Disk where
  entries : Std.ExtTreeMap Location Entry
  working : Location

namespace Disk

def nameLimit : Nat := 255
def pathLimit : Nat := 4095

def empty (working : Location) : Disk :=
  ⟨(List.range working.length).foldl (fun es n => es.insert (working.take (n + 1)) .directory) ∅,
    working⟩

/-- The root is always there. -/
def entry? (d : Disk) (l : Location) : Option Entry :=
  if l = [] then some .directory else d.entries[l]?

def enter (d : Disk) (l : Location) (segment : String) : Except DiskFault Location :=
  match d.entry? l with
  | none => .error .notFound
  | some .directory =>
    match segment with
    | "" => .ok l
    | "." => .ok l
    | ".." => .ok l.dropLast
    | name => if nameLimit < name.utf8ByteSize then .error .nameTooLong else .ok (l ++ [name])
  | some _ => .error .notDirectory

/-- Where the segments of a path lead. The last of them need not exist. -/
def follow (d : Disk) (p : Path) (segments : List String) : Except DiskFault Location :=
  if p = "" then .error .notFound
  else if pathLimit < p.utf8ByteSize then .error .nameTooLong
  else segments.foldlM d.enter (if p.isAbsolute then [] else d.working)

def locate (d : Disk) (p : Path) : Except DiskFault Location := d.follow p p.segments

def put (d : Disk) (l : Location) (e : Entry) : Disk := { d with entries := d.entries.insert l e }

def read (d : Disk) (p : Path) : Except DiskFault String :=
  match d.locate p with
  | .error fault => .error fault
  | .ok l =>
    match d.entry? l with
    | none => .error .notFound
    | some .directory => .error .isDirectory
    | some (.text content) => .ok content
    | some .binary => .error .notText

def write (d : Disk) (p : Path) (content : String) : Except DiskFault Disk :=
  match d.locate p with
  | .error fault => .error fault
  | .ok l =>
    if d.entry? l = some .directory then .error .isDirectory else .ok (d.put l (.text content))

/-- The name of a new directory may be followed by slashes. -/
def makeDirectory (d : Disk) (p : Path) : Except DiskFault Disk :=
  match d.follow p (p.segments.reverse.dropWhile (· = "")).reverse with
  | .error fault => .error fault
  | .ok l => if (d.entry? l).isSome then .error .alreadyExists else .ok (d.put l .directory)

def isDirectory (d : Disk) (p : Path) : Bool :=
  match d.locate p with
  | .ok l => d.entry? l = some .directory
  | .error _ => false

def addFile (d : Disk) (names : List String) (e : Entry) : Disk :=
  let above := (List.range (names.length - 1)).map fun n => d.working ++ names.take (n + 1)
  (above.foldl (fun d l => d.put l .directory) d).put (d.working ++ names) e

/-- The text files below the working directory, by path. -/
def texts (d : Disk) : List (Path × String) :=
  let found := d.entries.toList.filterMap fun (l, e) =>
    match e with
    | .text content =>
      if d.working.isPrefixOf l then
        some (Text.joined "/" (l.drop d.working.length), content)
      else none
    | _ => none
  found.mergeSort fun a b => a.1 ≤ b.1

end Disk

structure Session where
  disk : Disk
  printed : String
  reported : String

namespace Session

def start (disk : Disk) : Session := ⟨disk, "", ""⟩

/-- The session after a change of the disk, which stays as it was if the change fails. -/
def change (f : Disk → Except DiskFault Disk) : StateM Session (Except DiskFault Unit) :=
  fun s =>
    match f s.disk with
    | .ok disk => (.ok (), { s with disk })
    | .error fault => (.error fault, s)

def host : Host (StateM Session) where
  read p := fun s => (s.disk.read p, s)
  write p content := change (·.write p content)
  makeDirectory p := change (·.makeDirectory p)
  isDirectory p := fun s => (s.disk.isDirectory p, s)
  print text := fun s => ((), { s with printed := s.printed ++ text })
  report text := fun s => ((), { s with reported := s.reported ++ text })

end Session

end CommandLine

end SyncCircuit
