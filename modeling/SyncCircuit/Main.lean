import SyncCircuit.CommandLine.Run

/-!
The program on a real disk: the host that asks the operating system, and the entry point.
-/

namespace SyncCircuit

namespace CommandLine

namespace DiskFault

/-- The number of an error of the operating system, which some calls give as its negative. -/
def number (code : UInt32) : Nat := min code.toNat (UInt32.size - code.toNat)

def numbered (text : String) (code : UInt32) : DiskFault :=
  other (text ++ " (os error " ++ toString (number code) ++ ")")

def ofError : IO.Error → DiskFault
  | .noFileOrDirectory _ _ _ => notFound
  | .alreadyExists _ _ _ => alreadyExists
  | .inappropriateType _ code _ => if number code = 21 then isDirectory else notDirectory
  | .invalidArgument _ code text => if number code = 36 then nameTooLong else numbered text code
  | .permissionDenied _ code text => numbered text code
  | .resourceExhausted _ code text => numbered text code
  | e => other (toString e)

end DiskFault

namespace RealDisk

def attempt {α : Type} (action : IO α) : IO (Except DiskFault α) := do
  try return .ok (← action) catch e => return .error (.ofError e)

def read (p : Path) : IO (Except DiskFault String) := do
  match ← attempt (IO.FS.readBinFile p) with
  | .error fault => return .error fault
  | .ok bytes =>
    match String.fromUTF8? bytes with
    | some text => return .ok text
    | none => return .error .notText

/-- Reading fails in its own way on a directory. -/
def isDirectory (p : Path) : IO Bool := do
  match ← read p with
  | .error .isDirectory => return true
  | _ => return false

def host : Host IO where
  read := read
  write p text := attempt (IO.FS.writeFile p text)
  makeDirectory p := attempt (IO.FS.createDir p)
  isDirectory := isDirectory
  print := IO.print
  report := IO.eprint

end RealDisk

end CommandLine

end SyncCircuit

def main (arguments : List String) : IO UInt32 := do
  let level ← IO.getEnv "LEVEL"
  let code ← SyncCircuit.CommandLine.run SyncCircuit.CommandLine.RealDisk.host level arguments
  return code.toUInt32
