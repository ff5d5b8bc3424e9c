import SyncCircuit.Text.Blank
import SyncCircuit.Text.Pieces
import SyncCircuit.Token

/-!
A text as a sequence of placed tokens. At each offset the longest piece wins; blanks and comments
are skipped. Where no piece starts, the scan stops and remembers the offset.
-/

namespace SyncCircuit

def isBit (c : Char) : Bool := c = '0' || c = '1'
def isNameStart (c : Char) : Bool := c.isAlpha || c = '_'
def isNamePart (c : Char) : Bool := c.isAlphanum || c = '_'
def isLineBreak (c : Char) : Bool := c = '\n' || c = '\r'

/-- A text up to and including its first end of comment, and what comes after. -/
def closeComment? : List Char → Option (List Char × List Char)
  | [] => none
  | '*' :: '/' :: rest => some (['*', '/'], rest)
  | c :: rest => (closeComment? rest).map fun (body, after) => (c :: body, after)

theorem append_of_closeComment? {cs body after : List Char}
    (h : closeComment? cs = some (body, after)) : body ++ after = cs := by
  fun_induction closeComment? cs generalizing body after with
  | case1 => simp at h
  | case2 rest => cases h; rfl
  | case3 c rest _ ih =>
    obtain ⟨⟨b, a⟩, hb, hc⟩ := Option.map_eq_some_iff.1 h
    cases hc
    simp [ih hb]

/-- The first piece of a text: the token it is, unless it is skipped, its characters, and what comes
after them. -/
structure Lexeme where
  token : Option Token
  text : List Char
  rest : List Char

namespace Lexeme

def ofLineComment (cs : List Char) : Lexeme :=
  let after := cs.dropWhile (!isLineBreak ·)
  ⟨none, '/' :: '/' :: (cs.takeWhile (!isLineBreak ·) ++ after.takeWhile isLineBreak),
    after.dropWhile isLineBreak⟩

def ofBits (cs : List Char) : Lexeme :=
  let digits := cs.takeWhile isBit
  ⟨some (.bits (digits.map (· == '1'))), digits, cs.dropWhile isBit⟩

/-- Names may end in one `'`. -/
def ofName (cs : List Char) : Lexeme :=
  let word := cs.takeWhile isNamePart
  match cs.dropWhile isNamePart with
  | '\'' :: rest => ⟨some (.name (String.ofList (word ++ ['\'']))), word ++ ['\''], rest⟩
  | rest => ⟨some (.name (String.ofList word)), word, rest⟩

def ofMark? (cs : List Char) : Option Lexeme :=
  (Mark.all.find? fun m => m.spelling.toList.isPrefixOf cs).map fun m =>
    ⟨some (.mark m), m.spelling.toList, cs.drop m.spelling.toList.length⟩

/-- A `/*` without its end is no comment: its `/` is a token. -/
def first? : List Char → Option Lexeme
  | [] => none
  | '/' :: '/' :: rest => some (ofLineComment rest)
  | '/' :: '*' :: rest =>
    match closeComment? rest with
    | some (body, after) => some ⟨none, '/' :: '*' :: body, after⟩
    | none => some ⟨some (.mark .negate), ['/'], '*' :: rest⟩
  | c :: rest =>
    if Text.isBlank c then some ⟨none, [c], rest⟩
    else if isBit c then some (ofBits (c :: rest))
    else if isNameStart c then some (ofName (c :: rest))
    else ofMark? (c :: rest)

theorem ofMark?_text {cs : List Char} {l : Lexeme} (h : ofMark? cs = some l) :
    l.text ++ l.rest = cs ∧ l.text ≠ [] := by
  obtain ⟨m, hm, rfl⟩ := Option.map_eq_some_iff.1 h
  have hp : m.spelling.toList.isPrefixOf cs = true := by simpa using List.find?_some hm
  refine ⟨?_, m.spelling_ne_nil⟩
  obtain ⟨rest, rfl⟩ := List.isPrefixOf_iff_prefix.1 hp
  simp

theorem ofName_text (c : Char) (cs : List Char) (hc : isNamePart c = true) :
    (ofName (c :: cs)).text ++ (ofName (c :: cs)).rest = c :: cs ∧
      (ofName (c :: cs)).text ≠ [] := by
  have h := List.takeWhile_append_dropWhile (p := isNamePart) (l := c :: cs)
  unfold ofName
  split
  · next rest hr => rw [hr] at h; simpa [hc] using h
  · simp [hc]

theorem first?_text {cs : List Char} {l : Lexeme} (h : first? cs = some l) :
    l.text ++ l.rest = cs ∧ l.text ≠ [] := by
  unfold first? at h
  split at h
  · simp at h
  · next rest =>
    cases h
    simp [ofLineComment]
  · next rest =>
    split at h
    · next hc => cases h; simp [append_of_closeComment? hc]
    · cases h; simp
  · next c rest _ _ =>
    split at h
    · cases h; simp
    split at h
    · next hb => cases h; simp [ofBits, hb, List.takeWhile_append_dropWhile]
    split at h
    · next hn =>
      cases h
      refine ofName_text c rest ?_
      simp only [isNameStart, isNamePart, Char.isAlphanum, Bool.or_eq_true] at hn ⊢
      exact hn.imp_left Or.inl
    · exact ofMark?_text h

end Lexeme

structure Placed where
  token : Token
  start : Nat
  stop : Nat
deriving DecidableEq

/-- The tokens of a text, up to the offset `invalid`, if at that offset no piece starts. -/
structure Scan where
  tokens : List Placed
  invalid : Option Nat
deriving DecidableEq

namespace Scan

/-- The scan with a piece in front, which counts only if it is a token. -/
def withPiece (after : Scan) (token : Option Token) (start stop : Nat) : Scan :=
  match token with
  | none => after
  | some t => { after with tokens := ⟨t, start, stop⟩ :: after.tokens }

/-- The scan of a text that starts at the given offset and whose first `skip` characters belong to
an earlier piece. -/
def ofChars (skip offset : Nat) : List Char → Scan
  | [] => ⟨[], none⟩
  | c :: cs =>
    match skip with
    | skip + 1 => ofChars skip (offset + c.utf8Size) cs
    | 0 =>
      match Lexeme.first? (c :: cs) with
      | none => ⟨[], some offset⟩
      | some l =>
        (ofChars (l.text.length - 1) (offset + c.utf8Size) cs).withPiece l.token offset
          (offset + Text.byteCount l.text)

theorem ofChars_length (a b : List Char) (offset : Nat) :
    ofChars a.length offset (a ++ b) = ofChars 0 (offset + Text.byteCount a) b := by
  induction a generalizing offset with
  | nil => simp
  | cons c cs ih => simpa [ofChars, Nat.add_assoc] using ih (offset + c.utf8Size)

theorem ofChars_zero {cs : List Char} {l : Lexeme} (h : Lexeme.first? cs = some l) (offset : Nat) :
    ofChars 0 offset cs =
      (ofChars 0 (offset + Text.byteCount l.text) l.rest).withPiece l.token offset
        (offset + Text.byteCount l.text) := by
  obtain ⟨hcs, hne⟩ := Lexeme.first?_text h
  cases cs with
  | nil => simp [Lexeme.first?] at h
  | cons c cs =>
    cases ht : l.text with
    | nil => exact absurd ht hne
    | cons d ds =>
      rw [ht, List.cons_append] at hcs
      obtain ⟨rfl, rfl⟩ := List.cons.inj hcs
      have hr := ofChars_length ds l.rest (offset + d.utf8Size)
      simp only [ofChars, h, ht, List.length_cons, Nat.add_sub_cancel, hr, Text.byteCount_cons,
        Nat.add_assoc]

def ofText (text : String) : Scan := ofChars 0 0 text.toList

end Scan

end SyncCircuit
