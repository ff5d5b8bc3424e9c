import SyncCircuit.Text.Quoted

/-!
Structured data and their text: one item or field a line, two more blanks of indentation for each
level, and nothing between the brackets of an empty list.
-/

namespace SyncCircuit

inductive Json where
  | number (n : Nat)
  | string (s : String)
  | array (items : List Json)
  | object (fields : List (String × Json))

namespace Json

def newLine (level : Nat) : String := "\n" ++ String.ofList (List.replicate (2 * level) ' ')

mutual

def textAt (level : Nat) : Json → String
  | number n => toString n
  | string s => Text.doubleQuoted s
  | array [] => "[]"
  | array (v :: vs) => "[" ++ itemsAt (level + 1) (v :: vs) ++ newLine level ++ "]"
  | object [] => "\x7b\x7d"
  | object (f :: fs) => "\x7b" ++ fieldsAt (level + 1) (f :: fs) ++ newLine level ++ "\x7d"

def itemsAt (level : Nat) : List Json → String
  | [] => ""
  | [v] => newLine level ++ textAt level v
  | v :: w :: vs => newLine level ++ textAt level v ++ "," ++ itemsAt level (w :: vs)

def fieldsAt (level : Nat) : List (String × Json) → String
  | [] => ""
  | [f] => newLine level ++ fieldAt level f
  | f :: g :: fs => newLine level ++ fieldAt level f ++ "," ++ fieldsAt level (g :: fs)

def fieldAt (level : Nat) : String × Json → String
  | (key, v) => Text.doubleQuoted key ++ ": " ++ textAt level v

end

def text (v : Json) : String := textAt 0 v

end Json

end SyncCircuit
