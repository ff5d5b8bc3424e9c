import SyncCircuit.CommandLine.Path

/-!
What a run of the program asks of its surroundings: to read and write files, to make directories
and to print. A host answers in any monad, so that a run can be followed without a real disk.
-/

namespace SyncCircuit

namespace CommandLine

inductive DiskFault where
  | notFound
  | alreadyExists
  | notDirectory
  | isDirectory
  | nameTooLong
  | notText
  | other (text : String)
deriving DecidableEq

def DiskFault.text : DiskFault → String
  | notFound => "No such file or directory (os error 2)"
  | alreadyExists => "File exists (os error 17)"
  | notDirectory => "Not a directory (os error 20)"
  | isDirectory => "Is a directory (os error 21)"
  | nameTooLong => "File name too long (os error 36)"
  | notText => "stream did not contain valid UTF-8"
  | other text => text

structure Host (m : Type → Type) where
  read : Path → m (Except DiskFault String)
  write : Path → String → m (Except DiskFault Unit)
  makeDirectory : Path → m (Except DiskFault Unit)
  isDirectory : Path → m Bool
  print : String → m Unit
  report : String → m Unit

namespace Host

variable {m : Type → Type} [Monad m] (h : Host m)

/-- Takes it as done if the directory is there, and otherwise as failed. -/
def orPresent (p : Path) (fault : DiskFault) : m (Except DiskFault Unit) := do
  if ← h.isDirectory p then return .ok () else return .error fault

/-- Makes the first of the given directories, and those after it that are missing, of which each is
above the one before. -/
def makeAll : List Path → m (Except DiskFault Unit)
  | [] => pure (.ok ())
  | p :: above => do
    if p = "" then return .ok ()
    match ← h.makeDirectory p with
    | .ok () => return .ok ()
    | .error .notFound =>
      match ← makeAll above with
      | .error fault => return .error fault
      | .ok () =>
        match ← h.makeDirectory p with
        | .ok () => return .ok ()
        | .error fault => h.orPresent p fault
    | .error fault => h.orPresent p fault

def makeDirectories (p : Path) : m (Except DiskFault Unit) := h.makeAll p.ancestors

end Host

end CommandLine

end SyncCircuit
