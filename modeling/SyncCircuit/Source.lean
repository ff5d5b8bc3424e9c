import SyncCircuit.Text.Pieces

/-!
Where something stands in a text. Offsets count bytes; a `Source` knows the length of each of its
lines and turns an offset into a line and a column. Past the end the last line goes on.
-/

namespace SyncCircuit

/-- A line and a column, both counted from one. The column counts bytes. -/
structure Position where
  line : Nat
  column : Nat
deriving DecidableEq

def Position.text (p : Position) : String := toString p.line ++ ":" ++ toString p.column

inductive Origin where
  | file (path : String)
  | string
  | unknown
deriving DecidableEq

/-- `lines` holds the bytes of each line, counting a line break also at the end of the last. -/
structure Source where
  origin : Origin
  lines : List Nat
deriving DecidableEq

namespace Source

/-- The lengths of the lines of a text of whose first line `current` bytes have been passed. -/
def lineLengths (current : Nat) : List Char → List Nat
  | [] => [current + 1]
  | c :: cs =>
    if c = '\n' then (current + 1) :: lineLengths 0 cs
    else lineLengths (current + c.utf8Size) cs

def ofString (text : String) : Source := ⟨.string, lineLengths 0 text.toList⟩
def ofFile (path text : String) : Source := ⟨.file path, lineLengths 0 text.toList⟩
def unknown : Source := ⟨.unknown, lineLengths 0 []⟩

/-- The place of an offset counted from the start of line `line`, which `lengths` begins with. -/
def locate (line : Nat) : List Nat → Nat → Position
  | [], offset => ⟨line, offset + 1⟩
  | length :: rest, offset =>
    if length ≤ offset then locate (line + 1) rest (offset - length) else ⟨line, offset + 1⟩

def position (s : Source) (offset : Nat) : Position := locate 1 s.lines offset

end Source

/-- A stretch of a source, from the byte `start` up to the byte `stop`. -/
structure Span where
  source : Source
  start : Nat
  stop : Nat
deriving DecidableEq

namespace Span

def unknown : Span := ⟨.unknown, 0, 0⟩

def first (s : Span) : Position := s.source.position s.start
def last (s : Span) : Position := s.source.position s.stop

def text (s : Span) : String :=
  match s.source.origin with
  | .file path => path ++ ":" ++ s.first.text
  | .string => s.first.text
  | .unknown => "<unknown>"

end Span

end SyncCircuit
