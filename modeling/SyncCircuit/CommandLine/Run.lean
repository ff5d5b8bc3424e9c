import SyncCircuit.CommandLine.Arguments
import SyncCircuit.CommandLine.Disk
import SyncCircuit.Journal
import SyncCircuit.Program.Reader
import SyncCircuit.Report.Page
import SyncCircuit.Report.Traces

/-!
A run of the program: it reads a circuit description, writes it as a page, simulates the circuit
and prints the traces. The first stage that fails ends the run; what was written or printed before
stays.
-/

namespace SyncCircuit

namespace CommandLine

structure Failure where
  message : String
  cause : Option DiskFault

namespace Failure

def ofFault (f : Fault) : Failure := ⟨f.message, none⟩

def text (f : Failure) : String :=
  "Error: " ++ f.message ++ "\n" ++
    match f.cause with
    | none => ""
    | some cause => "\nCaused by:\n    " ++ cause.text ++ "\n"

end Failure

/-- The least important events that are told, by the name of a level in the surroundings. -/
def threshold (level : Option String) (debug : Bool) : Level :=
  if level = some "TRACE" then .trace
  else if debug || level = some "DEBUG" then .debug
  else if level = some "INFO" then .info
  else .warn

def rule : String := "== == == == == == == == == == == == == == ==\n"

def header (file : Path) : String :=
  "\n" ++ rule ++ "||--------|| Hardware Simulator ||--------||\n\n" ++
    "\t * Processing file: '" ++ file ++ "'\n\n"

def footer : String := "\n\t * Hardware simulator finished\n" ++ rule ++ "\n"

def versionLine : String := "hdl0 0.1.0\n"

def usage : String :=
  "Usage: hdl0 [OPTIONS] <FILENAME>\n\nOptions:\n" ++
    "      --html-dir <HTML_DIR>  The directory for the page [default: html_output]\n" ++
    "      --no-html              Write no page\n" ++
    "      --json                 Print the traces as data\n" ++
    "  -d, --debug                Tell about every cycle\n" ++
    "  -h, --help                 Print help\n" ++
    "  -V, --version              Print version\n"

def pagePath (o : Options) : Path := (Path.join o.directory o.file.fileStem).withExtension "html"

variable {m : Type → Type} [Monad m] (h : Host m)

def tell (least : Level) : List Event → m Unit
  | [] => pure ()
  | e :: es => do
    if e.level.detail ≤ least.detail then h.report (e.line ++ "\n")
    tell least es

def load (least : Level) (file : Path) : m (Except Failure Program) := do
  match ← h.read file with
  | .error cause => return .error ⟨"Couldn't read " ++ file, some cause⟩
  | .ok text =>
    match Program.parseFrom (.ofFile file text) text with
    | .error f => return .error (.ofFault f)
    | .ok p =>
      tell h least [.parsed p.name]
      return .ok p

def writePage (least : Level) (o : Options) (p : Program) : m (Except Failure Unit) := do
  match ← h.makeDirectories o.directory with
  | .error cause => return .error ⟨"Couldn't create " ++ o.directory, some cause⟩
  | .ok () =>
    match ← h.write (pagePath o) p.page with
    | .error cause => return .error ⟨"Error writing HTML file: " ++ pagePath o, some cause⟩
    | .ok () =>
      tell h least [.written (pagePath o)]
      return .ok ()

def simulate (least : Level) (p : Program) : m (Except Failure Circuit) := do
  match Circuit.ofProgram p with
  | .error f => return .error (.ofFault f)
  | .ok c =>
    tell h least c.events
    tell h least (Simulation.start c).runEvents
    let o := c.simulate
    match o.fault with
    | some f => return .error (.ofFault f)
    | none => return .ok o.state

def printTraces (o : Options) (c : Circuit) : m Unit := do
  if o.json then
    h.print (c.jsonReport.text ++ "\n")
  else
    h.report "|| Simulation input ||\n"
    h.print (Trace.lines c.stimuli)
    h.print "\n"
    h.report "|| Simulation output ||\n"
    h.print (Trace.lines c.recorded)

def stages (least : Level) (o : Options) : m (Except Failure Unit) := do
  h.print (header o.file)
  match ← load h least o.file with
  | .error f => return .error f
  | .ok p =>
    match ← if o.page then writePage h least o p else pure (.ok ()) with
    | .error f => return .error f
    | .ok () =>
      match ← simulate h least p with
      | .error f => return .error f
      | .ok c =>
        printTraces h o c
        if o.page then h.print ("\n\t * Saved Generated HTML at: \"" ++ pagePath o ++ "\"\n")
        h.print footer
        return .ok ()

/-- Runs the program and returns its exit code. `level` is the level of events that the surroundings
ask for. -/
def run (level : Option String) (arguments : List String) : m Nat := do
  match Options.ofArguments arguments with
  | .error .version =>
    h.print versionLine
    return 0
  | .error .help =>
    h.print usage
    return 0
  | .error (.refused reason) =>
    h.report ("error: " ++ reason ++ "\n\n" ++ usage)
    return 2
  | .ok o =>
    match ← stages h (threshold level o.debug) o with
    | .ok () => return 0
    | .error f =>
      h.report f.text
      return 1

end CommandLine

end SyncCircuit
