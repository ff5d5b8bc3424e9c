import SyncCircuit.Text.Pieces

/-!
Paths as texts: their components, the directories above them, and the names of files.
-/

namespace SyncCircuit

abbrev Path := String

namespace Path

/-- A path without what does not change where it leads: repeated slashes, a slash at the end, and
`.` anywhere but at the start. -/
inductive Component where
  | root
  | here
  | up
  | name (x : String)
deriving DecidableEq

def Component.text : Component → String
  | root => ""
  | here => "."
  | up => ".."
  | name x => x

def segments (p : Path) : List String := (Text.pieces '/' p.toList).map String.ofList

def isAbsolute (p : Path) : Bool := p.toList.head? = some '/'

def component? : String → Option Component
  | "" => none
  | "." => none
  | ".." => some .up
  | x => some (.name x)

def components (p : Path) : List Component :=
  match p.segments with
  | "" :: rest => (if p.isAbsolute then [.root] else []) ++ rest.filterMap component?
  | "." :: rest => .here :: rest.filterMap component?
  | all => all.filterMap component?

def ofComponents : List Component → Path
  | [.root] => "/"
  | cs => Text.joined "/" (cs.map Component.text)

/-- The path and the directories above it, the nearest first and the empty path last. -/
def ancestors (p : Path) : List Path :=
  let cs := p.components
  p :: (List.range cs.length).reverse.map fun n => ofComponents (cs.take n)

def fileName? (p : Path) : Option String :=
  match p.components.getLast? with
  | some (.name x) => some x
  | _ => none

/-- The part of a file name before its last dot. A dot at the start does not count. -/
def stem (name : String) : String :=
  let front := (name.toList.reverse.dropWhile (· ≠ '.')).drop 1
  if front = [] then name else String.ofList front.reverse

/-- The stem of the file name, or the whole path if it has none. -/
def fileStem (p : Path) : String := (p.fileName?.map stem).getD p

/-- A path within a directory, unless it is absolute and so needs none. -/
def join (directory : Path) (p : Path) : Path :=
  if p.isAbsolute || directory = "" then p
  else if directory.toList.getLast? = some '/' then directory ++ p
  else directory ++ "/" ++ p

/-- What is left of a path when nothing, or only slashes and `/.`, stands behind its file name. -/
def dropTrailing (cs : List Char) : List Char :=
  match cs with
  | '/' :: rest => dropTrailing rest
  | '.' :: '/' :: rest => dropTrailing rest
  | cs => cs

/-- The path with the extension of its file name replaced, or a new one where there is none. A path
that does not end in a file name stays. A path that ends in `..x` leads to the directory above as
soon as its `x` is gone, so it is given no extension; with a slash behind that name it is. -/
def withExtension (p : Path) (extension : String) : Path :=
  match p.fileName? with
  | none => p
  | some name =>
    let written := p.toList.reverse
    let kept := (dropTrailing written).drop (name.length - (stem name).length)
    let leadsUp := stem name == "." && dropTrailing written == written
    String.ofList kept.reverse ++ "." ++ (if leadsUp then "" else extension)

example : withExtension "a/b.c" "d" = "a/b.d" ∧ withExtension "a.b/." "d" = "a.d" := by
  decide +kernel

example : withExtension "a/..b" "d" = "a/.." ∧ withExtension "a/..b/" "d" = "a/..d" := by
  decide +kernel

end Path

end SyncCircuit
