import SyncCircuit.Text.Printable

/-!
A character between quotes, as messages show it, and a text between double quotes, as data show it.
-/

namespace SyncCircuit.Text

def hexDigits (n : Nat) : String := String.ofList (Nat.toDigits 16 n)

/-- Whether a character, put between quotes, is seen there and apart from the first quote. -/
def standsAlone (c : Char) : Bool :=
  isPrintable c && !isIgnorable c && (!isGraphemeExtend c || isHalfwidthSoundMark c)

/-- Between `'`: a character that cannot stand for itself is shown by its code point. -/
def quoted (c : Char) : String :=
  "'" ++ (match c with
    | '\x00' => "\\0"
    | '\t' => "\\t"
    | '\r' => "\\r"
    | '\n' => "\\n"
    | '\'' => "\\'"
    | '\\' => "\\\\"
    | c =>
      if standsAlone c then String.singleton c
      else "\\u\x7b" ++ hexDigits c.toNat ++ "\x7d") ++ "'"

example : quoted 'X' = "'X'" ∧ quoted '\'' = "'\\''" ∧ quoted '"' = "'\"'" := by decide +kernel

example : quoted '\u00a0' = "'\\u\x7ba0\x7d'" ∧ quoted '\u0301' = "'\\u\x7b301\x7d'" := by
  decide +kernel

example : quoted '\u115f' = "'\\u\x7b115f\x7d'" ∧ quoted '\uff9e' = "'\uff9e'" := by decide +kernel

def escaped (c : Char) : String :=
  match c with
  | '"' => "\\\""
  | '\\' => "\\\\"
  | '\x08' => "\\b"
  | '\t' => "\\t"
  | '\n' => "\\n"
  | '\x0c' => "\\f"
  | '\r' => "\\r"
  | c =>
    if c.toNat < 0x10 then "\\u000" ++ hexDigits c.toNat
    else if c.toNat < 0x20 then "\\u00" ++ hexDigits c.toNat
    else String.singleton c

/-- Between `"`: quotes, backslashes and controls are escaped, and all else stands for itself. -/
def doubleQuoted (s : String) : String :=
  "\"" ++ s.toList.foldr (fun c rest => escaped c ++ rest) "\""

example : doubleQuoted "a\"\n" = "\"a\\\"\\n\"" ∧ doubleQuoted "\x1f\x7f" = "\"\\u001f\x7f\"" := by
  decide +kernel

end SyncCircuit.Text
