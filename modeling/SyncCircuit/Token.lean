import SyncCircuit.Signal

/-!
The words of a circuit description: marks, which have one spelling each, bit strings and names.
A `Terminal` is a kind of word, as messages list them.
-/

namespace SyncCircuit

inductive Mark where
  | openParen | closeParen | times | plus | comma
  | define | hardware | inputs | latches | outputs | simulate | update
  | negate | equals
deriving DecidableEq

namespace Mark

def spelling : Mark → String
  | openParen => "("
  | closeParen => ")"
  | times => "*"
  | plus => "+"
  | comma => ","
  | define => ".def"
  | hardware => ".hardware"
  | inputs => ".inputs"
  | latches => ".latches"
  | outputs => ".outputs"
  | simulate => ".simulate"
  | update => ".update"
  | negate => "/"
  | equals => "="

/-- In the order in which messages list them. -/
def all : List Mark :=
  [openParen, closeParen, times, plus, comma, define, hardware, inputs, latches, outputs, simulate,
   update, negate, equals]

theorem mem_all (m : Mark) : m ∈ all := by cases m <;> decide

theorem spelling_ne_nil (m : Mark) : m.spelling.toList ≠ [] := by cases m <;> decide

end Mark

inductive Terminal where
  | mark (m : Mark)
  | bits
  | name
deriving DecidableEq

namespace Terminal

def all : List Terminal := Mark.all.map mark ++ [bits, name]

theorem mem_all (t : Terminal) : t ∈ all := by
  cases t with
  | mark m => exact List.mem_append_left _ (List.mem_map_of_mem m.mem_all)
  | bits => decide
  | name => decide

theorem nodup_all : all.Nodup := by decide

def description : Terminal → String
  | mark m => "\"" ++ m.spelling ++ "\""
  | bits => "r#\"[01]+\"#"
  | name => "r#\"[A-Za-z_][A-Za-z0-9_]*'?\"#"

end Terminal

inductive Token where
  | mark (m : Mark)
  | bits (values : List Bool)
  | name (text : Name)
deriving DecidableEq

namespace Token

def terminal : Token → Terminal
  | mark m => .mark m
  | bits _ => .bits
  | name _ => .name

def text : Token → String
  | mark m => m.spelling
  | bits values => String.ofList (values.map digit)
  | name n => n

end Token

def Terminal.sample : Terminal → Token
  | mark m => .mark m
  | bits => .bits [false]
  | name => .name "_"

@[simp] theorem Terminal.terminal_sample (t : Terminal) : t.sample.terminal = t := by
  cases t <;> rfl

end SyncCircuit
