import SyncCircuit.CommandLine.Path

/-!
The arguments of a run. They are read from left to right, and the first that asks for the version
or for help, or that cannot stand where it stands, ends the reading.
-/

namespace SyncCircuit

namespace CommandLine

structure Options where
  file : Path
  directory : Path
  page : Bool
  json : Bool
  debug : Bool
deriving DecidableEq

/-- What ends the reading of arguments early. -/
inductive Stop where
  | version
  | help
  | refused (reason : String)
deriving DecidableEq

structure Given where
  file : Option Path
  directory : Option Path
  noPage : Bool
  json : Bool
  debug : Bool
  /-- The next argument is the directory for the page. -/
  awaiting : Bool
  /-- All arguments that follow are files. -/
  escaped : Bool
deriving DecidableEq

namespace Given

def none : Given := ⟨.none, .none, false, false, false, false, false⟩

def repeated (option : String) : Stop :=
  .refused ("the argument '" ++ option ++ "' cannot be used multiple times")

def unexpected (argument : String) : Stop :=
  .refused ("unexpected argument '" ++ argument ++ "' found")

def missing (value : String) : Stop := .refused ("a value is required for '" ++ value ++ "'")

def setFile (g : Given) (p : Path) : Except Stop Given :=
  if g.file.isSome then .error (unexpected p)
  else if p = "" then .error (missing "FILENAME")
  else .ok { g with file := some p }

def setDirectory (g : Given) (p : Path) : Except Stop Given :=
  if g.directory.isSome then .error (repeated "--html-dir")
  else if p = "" then .error (missing "--html-dir")
  else .ok { g with directory := some p, awaiting := false }

def setDebug (g : Given) : Except Stop Given :=
  if g.debug then .error (repeated "--debug") else .ok { g with debug := true }

/-- An argument that begins with `--`, split at its first `=`. -/
def long (g : Given) (argument name : String) (value : Option String) : Except Stop Given :=
  match name, value with
  | "--html-dir", .none => .ok { g with awaiting := true }
  | "--html-dir", some p => g.setDirectory p
  | "--no-html", .none =>
    if g.noPage then .error (repeated "--no-html") else .ok { g with noPage := true }
  | "--json", .none =>
    if g.json then .error (repeated "--json") else .ok { g with json := true }
  | "--debug", .none => g.setDebug
  | "--version", .none => .error .version
  | "--help", .none => .error .help
  | _, _ => .error (unexpected argument)

/-- The letters of an argument that begins with a single `-`. -/
def short (g : Given) (argument : String) : List Char → Except Stop Given
  | [] => .ok g
  | 'd' :: rest =>
    match g.setDebug with
    | .ok g => g.short argument rest
    | .error stop => .error stop
  | 'V' :: _ => .error .version
  | 'h' :: _ => .error .help
  | _ :: _ => .error (unexpected argument)

/-- A single `-` is no option. -/
def isOption (argument : String) : Bool :=
  match argument.toList with
  | '-' :: _ :: _ => true
  | _ => false

def splitAtEquals (argument : String) : String × Option String :=
  let cs := argument.toList
  match cs.dropWhile (· ≠ '=') with
  | [] => (argument, .none)
  | _ :: value => (String.ofList (cs.takeWhile (· ≠ '=')), some (String.ofList value))

def step (g : Given) (argument : String) : Except Stop Given :=
  if g.escaped then g.setFile argument
  else if isOption argument then
    if g.awaiting then .error (missing "--html-dir")
    else
      match argument.toList with
      | ['-', '-'] => .ok { g with escaped := true }
      | '-' :: '-' :: _ =>
        let (name, value) := splitAtEquals argument
        g.long argument name value
      | letters => g.short argument (letters.drop 1)
  else if g.awaiting then g.setDirectory argument
  else g.setFile argument

/-- The options, if they are complete. Without a directory the page goes to `html_output`. -/
def finish (g : Given) : Except Stop Options :=
  if g.awaiting then .error (missing "--html-dir")
  else
    match g.file with
    | .none => .error (.refused "the required argument FILENAME was not provided")
    | some file => .ok {
        file := file
        directory := g.directory.getD "html_output"
        page := !g.noPage
        json := g.json
        debug := g.debug }

end Given

def Options.ofArguments (arguments : List String) : Except Stop Options :=
  (arguments.foldlM Given.step Given.none).bind Given.finish

end CommandLine

end SyncCircuit
