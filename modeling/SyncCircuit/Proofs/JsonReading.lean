import Mathlib.Data.List.Basic
import Mathlib.Tactic.IntervalCases
import SyncCircuit.Proofs.Pieces
import SyncCircuit.Report.Json

/-!
Structured data are read back from their text. The reader knows nothing of how texts are laid out
and escaped here: it allows blanks between all parts of a text and every escape of a character. Of
numbers it takes the natural ones, since there are no others in the data.
-/

namespace SyncCircuit

open Text (joined)

namespace Json

section reader

variable {α : Type}

def isSpace (c : Char) : Bool := c = ' ' || c = '\t' || c = '\n' || c = '\r'

def skip (cs : List Char) : List Char := cs.dropWhile isSpace

def hexDigit? (c : Char) : Option Nat :=
  if '0' ≤ c ∧ c ≤ '9' then some (c.toNat - '0'.toNat)
  else if 'a' ≤ c ∧ c ≤ 'f' then some (c.toNat - 'a'.toNat + 10)
  else if 'A' ≤ c ∧ c ≤ 'F' then some (c.toNat - 'A'.toNat + 10)
  else none

def codeUnit? : List Char → Option (Nat × List Char)
  | a :: b :: c :: d :: rest =>
    ([a, b, c, d].mapM hexDigit?).map fun ds => (ds.foldl (fun n d => 16 * n + d) 0, rest)
  | _ => none

def isLeading (unit : Nat) : Bool := 0xd800 ≤ unit && unit < 0xdc00

def isTrailing (unit : Nat) : Bool := 0xdc00 ≤ unit && unit < 0xe000

/-- The character that an escape with `\u` stands for. Those from `0x10000` on need two units, with
an escape for each. -/
def scalar? (cs : List Char) : Option (Char × List Char) :=
  match codeUnit? cs with
  | none => none
  | some (leading, cs) =>
    if isTrailing leading then none
    else if isLeading leading then
      match cs with
      | '\\' :: 'u' :: cs =>
        match codeUnit? cs with
        | none => none
        | some (trailing, rest) =>
          if isTrailing trailing then
            some (Char.ofNat (0x10000 + 0x400 * (leading - 0xd800) + (trailing - 0xdc00)), rest)
          else none
      | _ => none
    else some (Char.ofNat leading, cs)

def escape? : Char → Option Char
  | '"' => some '"'
  | '\\' => some '\\'
  | '/' => some '/'
  | 'b' => some '\x08'
  | 'f' => some '\x0c'
  | 'n' => some '\n'
  | 'r' => some '\r'
  | 't' => some '\t'
  | _ => none

/-- A character within a string. Controls do not stand for themselves. -/
def character? : List Char → Option (Char × List Char)
  | '\\' :: 'u' :: cs => scalar? cs
  | '\\' :: c :: cs => (escape? c).map fun d => (d, cs)
  | c :: cs => if c = '"' ∨ c = '\\' ∨ c.toNat < 0x20 then none else some (c, cs)
  | [] => none

def characters? : Nat → List Char → Option (List Char × List Char)
  | 0, _ => none
  | n + 1, cs =>
    match character? cs with
    | some (c, cs) => (characters? n cs).map fun (w, rest) => (c :: w, rest)
    | none =>
      match cs with
      | '"' :: rest => some ([], rest)
      | _ => none

def string? (n : Nat) : List Char → Option (String × List Char)
  | '"' :: cs => (characters? n cs).map fun (w, rest) => (String.ofList w, rest)
  | _ => none

/-- Only zero begins with the digit zero. -/
def number? (cs : List Char) : Option (Nat × List Char) :=
  match cs.takeWhile Char.isDigit with
  | [] => none
  | '0' :: _ :: _ => none
  | ds => some (Nat.ofDigitChars 10 ds 0, cs.dropWhile Char.isDigit)

/-- One or more parts with commas between them, and the bracket that closes them. -/
def parts? (read : List Char → Option (α × List Char)) (close : Char) :
    Nat → List Char → Option (List α × List Char)
  | 0, _ => none
  | n + 1, cs =>
    match read cs with
    | none => none
    | some (a, cs) =>
      match skip cs with
      | [] => none
      | c :: cs =>
        if c = ',' then (parts? read close n cs).map fun (as, rest) => (a :: as, rest)
        else if c = close then some ([a], cs)
        else none

def enclosed? (read : List Char → Option (α × List Char)) (close : Char) (n : Nat)
    (cs : List Char) : Option (List α × List Char) :=
  match skip cs with
  | [] => none
  | c :: rest => if c = close then some ([], rest) else parts? read close n cs

def field? (read : List Char → Option (Json × List Char)) (n : Nat) (cs : List Char) :
    Option ((String × Json) × List Char) :=
  match string? n (skip cs) with
  | none => none
  | some (key, cs) =>
    match skip cs with
    | ':' :: cs => (read cs).map fun (v, rest) => ((key, v), rest)
    | _ => none

def value? : Nat → List Char → Option (Json × List Char)
  | 0, _ => none
  | n + 1, cs =>
    match skip cs with
    | '[' :: cs => (enclosed? (value? n) ']' n cs).map fun (vs, rest) => (.array vs, rest)
    | '{' :: cs =>
      (enclosed? (field? (value? n) n) '}' n cs).map fun (fs, rest) => (.object fs, rest)
    | '"' :: cs => (string? n ('"' :: cs)).map fun (s, rest) => (.string s, rest)
    | cs => (number? cs).map fun (m, rest) => (.number m, rest)

/-- The value of a text. No text holds more values or longer strings than it has characters. -/
def decode? (text : String) : Option Json :=
  match value? (text.length + 1) text.toList with
  | none => none
  | some (v, rest) => if skip rest = [] then some v else none

end reader

@[elab_as_elim]
theorem induct {motive : Json → Prop} (number : ∀ n, motive (number n))
    (string : ∀ s, motive (string s)) (array : ∀ vs, (∀ v ∈ vs, motive v) → motive (array vs))
    (object : ∀ fs, (∀ f ∈ fs, motive f.2) → motive (object fs)) (v : Json) : motive v := by
  refine @Json.rec motive (fun vs => ∀ v ∈ vs, motive v) (fun fs => ∀ f ∈ fs, motive f.2)
    (fun f => motive f.2) number string array object (by simp) (fun v vs hv hvs => ?_) (by simp)
    (fun f fs hf hfs => ?_) (fun _ _ hv => hv) v
  · exact List.forall_mem_cons.mpr ⟨hv, hvs⟩
  · exact List.forall_mem_cons.mpr ⟨hf, hfs⟩

section blanks

variable {gap cs rest : List Char} {c : Char}

def Blank (gap : List Char) : Prop := ∀ c ∈ gap, isSpace c = true

def EndsNumber (rest : List Char) : Prop := ∀ c ∈ rest.head?, c.isDigit = false

theorem skip_append (hgap : Blank gap) (cs : List Char) : skip (gap ++ cs) = skip cs :=
  List.dropWhile_append_of_pos hgap

theorem skip_cons (hc : isSpace c = false) (cs : List Char) : skip (c :: cs) = c :: cs := by
  rw [skip, List.dropWhile_cons_of_neg (by simp [hc])]

theorem isSpace_of_isDigit (hc : c.isDigit = true) : isSpace c = false := by
  rw [Bool.eq_false_iff]
  intro hspace
  simp only [isSpace, Bool.or_eq_true, decide_eq_true_eq] at hspace
  rcases hspace with ((rfl | rfl) | rfl) | rfl <;> cases hc

theorem endsNumber_cons (hc : c.isDigit = false) (cs : List Char) : EndsNumber (c :: cs) := by
  intro d hd
  obtain rfl := Option.some.inj hd
  exact hc

theorem endsNumber_gap (hgap : Blank gap) (h : EndsNumber cs) : EndsNumber (gap ++ cs) := by
  cases gap with
  | nil => exact h
  | cons c gap =>
    refine endsNumber_cons (Bool.eq_false_iff.mpr fun hc => ?_) _
    have hspace := hgap c List.mem_cons_self
    rw [isSpace_of_isDigit hc] at hspace
    cases hspace

theorem blank_newLine (level : ℕ) : Blank (newLine level).toList := by
  intro c hc
  simp only [newLine, String.toList_append, List.mem_append, String.toList_ofList,
    List.mem_replicate] at hc
  rcases hc with hc | ⟨-, rfl⟩
  · obtain rfl : c = '\n' := by simpa using hc
    rfl
  · rfl

end blanks

section strings

variable {c : Char} {w rest : List Char} {n : ℕ}

theorem character?_control (hc : c.toNat < 0x20) (rest : List Char) :
    character? ((Text.escaped c).toList ++ rest) = some (c, rest) := by
  obtain ⟨m, hm, rfl⟩ : ∃ m < 0x20, c = Char.ofNat m := ⟨c.toNat, hc, (Char.ofNat_toNat c).symm⟩
  interval_cases m <;> rfl

theorem escaped_of_plain (hq : c ≠ '"') (hb : c ≠ '\\') (hc : ¬ c.toNat < 0x20) :
    (Text.escaped c).toList = [c] := by
  unfold Text.escaped
  split <;> first | exact absurd rfl hq | exact absurd rfl hb | exact absurd (by decide) hc | skip
  rw [if_neg (by omega), if_neg hc, String.toList_singleton]

theorem character?_escaped (c : Char) (rest : List Char) :
    character? ((Text.escaped c).toList ++ rest) = some (c, rest) := by
  by_cases hc : c.toNat < 0x20
  · exact character?_control hc rest
  by_cases hq : c = '"'
  · subst hq
    rfl
  by_cases hb : c = '\\'
  · subst hb
    rfl
  rw [escaped_of_plain hq hb hc, List.singleton_append, character?.eq_def]
  split
  · next h => exact absurd (List.cons.inj h).1 hb
  · next h => exact absurd (List.cons.inj h).1 hb
  · next h =>
    obtain ⟨rfl, rfl⟩ := List.cons.inj h
    rw [if_neg (by simp [hq, hb, hc])]
  · next h => cases h

theorem characters?_escaped (hn : w.length < n) (rest : List Char) :
    characters? n (w.flatMap (fun c => (Text.escaped c).toList) ++ '"' :: rest) =
      some (w, rest) := by
  induction w generalizing n with
  | nil =>
    obtain ⟨n, rfl⟩ := Nat.exists_eq_succ_of_ne_zero (Nat.ne_zero_of_lt hn)
    rfl
  | cons c w ih =>
    obtain ⟨n, rfl⟩ := Nat.exists_eq_succ_of_ne_zero (Nat.ne_zero_of_lt hn)
    rw [List.flatMap_cons, List.append_assoc, characters?.eq_def]
    simp only [character?_escaped, ih (Nat.lt_of_succ_lt_succ hn), Option.map_some]

theorem toList_doubleQuoted (s : String) : (Text.doubleQuoted s).toList =
    '"' :: (s.toList.flatMap (fun c => (Text.escaped c).toList) ++ ['"']) := by
  have hfold : ∀ w : List Char, (w.foldr (fun c rest => Text.escaped c ++ rest) "\"").toList =
      w.flatMap (fun c => (Text.escaped c).toList) ++ ['"'] := by
    intro w
    induction w with
    | nil => simp
    | cons c w ih =>
      rw [List.foldr_cons, String.toList_append, ih, List.flatMap_cons, List.append_assoc]
  rw [Text.doubleQuoted, String.toList_append, hfold]
  simp

theorem string?_doubleQuoted {s : String} (hn : s.length < n) (rest : List Char) :
    string? n ((Text.doubleQuoted s).toList ++ rest) = some (s, rest) := by
  rw [← String.length_toList] at hn
  rw [toList_doubleQuoted, List.cons_append, List.append_assoc, List.singleton_append, string?,
    characters?_escaped hn]
  simp only [Option.map_some, String.ofList_toList]

theorem length_le_escaped (w : List Char) :
    w.length ≤ (w.flatMap fun c => (Text.escaped c).toList).length := by
  induction w with
  | nil => exact Nat.le_refl 0
  | cons c w ih =>
    have hne : (Text.escaped c).toList ≠ [] := by
      intro h
      have hc := character?_escaped c []
      rw [h] at hc
      cases hc
    have hpos := List.length_pos_of_ne_nil hne
    rw [List.flatMap_cons, List.length_append, List.length_cons]
    omega

theorem length_lt_doubleQuoted (s : String) : s.length < (Text.doubleQuoted s).length := by
  have hle := length_le_escaped s.toList
  rw [← String.length_toList, ← String.length_toList, toList_doubleQuoted, List.length_cons,
    List.length_append]
  omega

end strings

section numbers

variable {n : ℕ} {cs rest : List Char}

theorem eq_nil_of_toDigits (h : Nat.toDigits 10 n = '0' :: cs) : cs = [] := by
  induction n using Nat.strong_induction_on generalizing cs with
  | _ n ih =>
    rw [Nat.toDigits_eq_if (by decide)] at h
    split at h
    · exact (List.cons.inj h).2.symm
    · next hn =>
      obtain ⟨d, ds, hds⟩ := List.exists_cons_of_ne_nil
        (Nat.toDigits_ne_nil : Nat.toDigits 10 (n / 10) ≠ [])
      rw [hds, List.cons_append] at h
      obtain ⟨rfl, -⟩ := List.cons.inj h
      -- A quotient that is not zero does not begin with zero either.
      obtain rfl := ih (n / 10) (by omega) hds
      have hzero : n / 10 = 0 := by
        have hvalue := congrArg (Nat.ofDigitChars 10 · 0) hds
        simpa [Nat.ofDigitChars_ten_toDigits, Nat.ofDigitChars_cons] using hvalue
      omega

theorem first_toString (n : ℕ) : ∃ c cs, (toString n).toList = c :: cs ∧ c.isDigit = true := by
  rw [Nat.toString_eq_ofList_toDigits, String.toList_ofList]
  obtain ⟨c, cs, hcs⟩ := List.exists_cons_of_ne_nil
    (Nat.toDigits_ne_nil : Nat.toDigits 10 n ≠ [])
  have hmem : c ∈ Nat.toDigits 10 n := by simp [hcs]
  exact ⟨c, cs, hcs, Nat.isDigit_of_mem_toDigits (by decide) (by decide) hmem⟩

theorem number?_toString (n : ℕ) (h : EndsNumber rest) :
    number? ((toString n).toList ++ rest) = some (n, rest) := by
  have hdigits : ∀ c ∈ Nat.toDigits 10 n, c.isDigit = true := fun c hc =>
    Nat.isDigit_of_mem_toDigits (by decide) (by decide) hc
  have htake : rest.takeWhile Char.isDigit = [] ∧ rest.dropWhile Char.isDigit = rest := by
    cases rest with
    | nil => exact ⟨rfl, rfl⟩
    | cons c rest => simp [h c rfl]
  rw [Nat.toString_eq_ofList_toDigits, String.toList_ofList, number?,
    List.takeWhile_append_of_pos hdigits, List.dropWhile_append_of_pos hdigits, htake.1, htake.2,
    List.append_nil]
  split
  · next hnil => exact absurd hnil Nat.toDigits_ne_nil
  · next hzero => cases eq_nil_of_toDigits hzero
  · rw [Nat.ofDigitChars_ten_toDigits]

end numbers

section parts

variable {α : Type} {read : List Char → Option (α × List Char)} {text : α → String}
variable {as : List α} {s : String} {ss : List String} {close : Char} {gap rest : List Char} {n : ℕ}

/-- The reader finds a thing in its text and stops there. -/
def ReadsBack (read : List Char → Option (α × List Char)) (text : α → String) (a : α) : Prop :=
  ∀ rest, EndsNumber rest → read ((text a).toList ++ rest) = some (a, rest)

def Closes (c : Char) : Prop := c = ']' ∨ c = '}'

theorem Closes.skip_cons (h : Closes close) (cs : List Char) :
    skip (close :: cs) = close :: cs := by
  rcases h with rfl | rfl <;> rfl

theorem Closes.endsNumber (h : Closes close) (cs : List Char) : EndsNumber (close :: cs) := by
  rcases h with rfl | rfl <;> exact endsNumber_cons rfl cs

theorem Closes.ne_comma (h : Closes close) : close ≠ ',' := by
  rcases h with rfl | rfl <;> decide

theorem length_joined_cons (s t : String) (ss : List String) :
    (joined "," (s :: t :: ss)).length = s.length + 1 + (joined "," (t :: ss)).length := by
  have hlength := congrArg List.length (toList_joined_cons s t ss)
  rw [List.length_append, List.length_cons] at hlength
  simp only [String.length_toList] at hlength
  omega

theorem length_le_joined (h : s ∈ ss) : s.length ≤ (joined "," ss).length := by
  induction ss with
  | nil => cases h
  | cons t ss ih =>
    cases ss with
    | nil =>
      obtain rfl := List.mem_singleton.mp h
      exact Nat.le_refl _
    | cons u ss =>
      rw [length_joined_cons]
      rcases List.mem_cons.mp h with rfl | h
      · omega
      · have hle := ih h
        omega

theorem parts?_joined (hclose : Closes close) (hgap : Blank gap)
    (hread : ∀ a ∈ as, ReadsBack read text a) (hne : as ≠ [])
    (hn : (joined "," (as.map text)).length < n) (rest : List Char) :
    parts? read close n ((joined "," (as.map text)).toList ++ (gap ++ close :: rest)) =
      some (as, rest) := by
  induction as generalizing n with
  | nil => exact absurd rfl hne
  | cons a as ih =>
    obtain ⟨ha, has⟩ := List.forall_mem_cons.mp hread
    obtain ⟨n, rfl⟩ := Nat.exists_eq_succ_of_ne_zero (Nat.ne_zero_of_lt hn)
    cases as with
    | nil =>
      have hlast := ha _ (endsNumber_gap hgap (hclose.endsNumber rest))
      simp only [List.map_cons, List.map_nil, joined, parts?, hlast, skip_append hgap,
        hclose.skip_cons, if_neg hclose.ne_comma, if_true]
    | cons b as =>
      simp only [List.map_cons, length_joined_cons] at hn
      have hrest := ih has (List.cons_ne_nil b as) (n := n) (by rw [List.map_cons]; omega)
      have hcomma : ∀ cs, skip (',' :: cs) = ',' :: cs := fun cs => rfl
      have hfirst := ha
        (',' :: ((joined "," ((b :: as).map text)).toList ++ (gap ++ close :: rest)))
        (endsNumber_cons rfl _)
      rw [List.map_cons, List.map_cons, toList_joined_cons, List.append_assoc, List.cons_append,
        ← List.map_cons, parts?, hfirst]
      simp only [hcomma, if_true, hrest, Option.map_some]

end parts

section values

variable {v : Json} {gap cs rest : List Char} {n level : ℕ}

theorem value?_gap (hgap : Blank gap) (n : ℕ) (cs : List Char) :
    value? n (gap ++ cs) = value? n cs := by
  cases n with
  | zero => rfl
  | succ n => simp only [value?, skip_append hgap]

def itemText (level : ℕ) (v : Json) : String := newLine level ++ textAt level v

def fieldText (level : ℕ) (f : String × Json) : String := newLine level ++ fieldAt level f

theorem itemsAt_eq (level : ℕ) (vs : List Json) :
    itemsAt level vs = joined "," (vs.map (itemText level)) := by
  induction vs with
  | nil => simp [itemsAt, joined]
  | cons v vs ih =>
    cases vs with
    | nil => simp [itemsAt, joined, itemText]
    | cons w vs => simp [itemsAt, joined, itemText, ih]

theorem fieldsAt_eq (level : ℕ) (fs : List (String × Json)) :
    fieldsAt level fs = joined "," (fs.map (fieldText level)) := by
  induction fs with
  | nil => simp [fieldsAt, joined]
  | cons f fs ih =>
    cases fs with
    | nil => simp [fieldsAt, joined, fieldText]
    | cons g fs => simp [fieldsAt, joined, fieldText, ih]

theorem toList_textAt_array (level : ℕ) (v : Json) (vs : List Json) :
    (textAt level (.array (v :: vs))).toList =
      '[' :: ((joined "," ((v :: vs).map (itemText (level + 1)))).toList ++
        ((newLine level).toList ++ [']'])) := by
  simp [textAt, itemsAt_eq]

theorem toList_textAt_object (level : ℕ) (f : String × Json) (fs : List (String × Json)) :
    (textAt level (.object (f :: fs))).toList =
      '{' :: ((joined "," ((f :: fs).map (fieldText (level + 1)))).toList ++
        ((newLine level).toList ++ ['}'])) := by
  simp [textAt, fieldsAt_eq]

theorem toList_fieldAt (level : ℕ) (f : String × Json) : (fieldAt level f).toList =
    (Text.doubleQuoted f.1).toList ++ ':' :: ' ' :: (textAt level f.2).toList := by
  obtain ⟨key, v⟩ := f
  simp [fieldAt]

theorem first_textAt (level : ℕ) (v : Json) :
    ∃ c cs, (textAt level v).toList = c :: cs ∧ isSpace c = false ∧ ¬ Closes c := by
  cases v with
  | number m =>
    obtain ⟨c, cs, hcs, hc⟩ := first_toString m
    refine ⟨c, cs, by rw [textAt, hcs], isSpace_of_isDigit hc, ?_⟩
    rintro (rfl | rfl) <;> cases hc
  | string s => exact ⟨'"', _, by rw [textAt, toList_doubleQuoted], rfl, by simp [Closes]⟩
  | array vs =>
    cases vs with
    | nil => exact ⟨'[', [']'], by simp [textAt], rfl, by simp [Closes]⟩
    | cons v vs => exact ⟨'[', _, toList_textAt_array level v vs, rfl, by simp [Closes]⟩
  | object fs =>
    cases fs with
    | nil => exact ⟨'{', ['}'], by simp [textAt], rfl, by simp [Closes]⟩
    | cons f fs => exact ⟨'{', _, toList_textAt_object level f fs, rfl, by simp [Closes]⟩

theorem enclosed?_joined {α : Type} {read : List Char → Option (α × List Char)} {text : α → String}
    {close : Char} (hclose : Closes close) (hgap : Blank gap) {a : α} {as : List α}
    (hread : ∀ b ∈ a :: as, ReadsBack read text b)
    (hfirst : ∀ cs, ∃ c cs', skip ((text a).toList ++ cs) = c :: cs' ∧ ¬ Closes c)
    (hn : (joined "," ((a :: as).map text)).length < n) (rest : List Char) :
    enclosed? read close n ((joined "," ((a :: as).map text)).toList ++ (gap ++ close :: rest)) =
      some (a :: as, rest) := by
  have hparts := parts?_joined hclose hgap hread (List.cons_ne_nil a as) hn rest
  obtain ⟨after, hafter⟩ : ∃ after,
      (joined "," ((a :: as).map text)).toList ++ (gap ++ close :: rest) =
        (text a).toList ++ after := by
    cases as with
    | nil => exact ⟨_, rfl⟩
    | cons b as =>
      rw [List.map_cons, List.map_cons, toList_joined_cons, List.append_assoc]
      exact ⟨_, rfl⟩
  obtain ⟨c, cs, hskip, hc⟩ := hfirst after
  rw [hafter] at hparts ⊢
  have hne : c ≠ close := by
    rintro rfl
    exact hc hclose
  rw [enclosed?, hskip]
  simp only [if_neg hne, hparts]

theorem skip_itemText (level : ℕ) (v : Json) (cs : List Char) :
    ∃ c cs', skip ((itemText level v).toList ++ cs) = c :: cs' ∧ ¬ Closes c := by
  obtain ⟨c, cs', htext, hspace, hc⟩ := first_textAt level v
  refine ⟨c, cs' ++ cs, ?_, hc⟩
  rw [itemText, String.toList_append, List.append_assoc, skip_append (blank_newLine level), htext,
    List.cons_append, skip_cons hspace]

theorem skip_fieldText (level : ℕ) (f : String × Json) (cs : List Char) :
    ∃ c cs', skip ((fieldText level f).toList ++ cs) = c :: cs' ∧ ¬ Closes c := by
  rw [fieldText, String.toList_append, List.append_assoc, skip_append (blank_newLine level),
    toList_fieldAt, toList_doubleQuoted]
  exact ⟨'"', _, rfl, by simp [Closes]⟩

theorem readsBack_item (hv : ReadsBack (value? n) (textAt level) v) :
    ReadsBack (value? n) (itemText level) v := by
  intro rest hrest
  rw [itemText, String.toList_append, List.append_assoc, value?_gap (blank_newLine level),
    hv rest hrest]

theorem readsBack_field {f : String × Json} (hkey : f.1.length < n)
    (hv : ReadsBack (value? n) (textAt level) f.2) :
    ReadsBack (field? (value? n) n) (fieldText level) f := by
  intro rest hrest
  have hspace : value? n (' ' :: ((textAt level f.2).toList ++ rest)) = some (f.2, rest) := by
    rw [← hv rest hrest]
    exact value?_gap (by simp [Blank, isSpace] : Blank [' ']) n _
  have hskip : ∀ cs, skip ((Text.doubleQuoted f.1).toList ++ cs) =
      (Text.doubleQuoted f.1).toList ++ cs := by
    intro cs
    rw [toList_doubleQuoted]
    rfl
  have hcolon : ∀ cs, skip (':' :: cs) = ':' :: cs := fun cs => rfl
  rw [fieldText, String.toList_append, List.append_assoc, toList_fieldAt, List.append_assoc, field?,
    skip_append (blank_newLine level), hskip, string?_doubleQuoted hkey]
  simp only [List.cons_append, hcolon, hspace, Option.map_some]

theorem value?_string (n : ℕ) (cs : List Char) : value? (n + 1) ('"' :: cs) =
    (string? n ('"' :: cs)).map fun (s, rest) => (.string s, rest) := rfl

theorem value?_array (n : ℕ) (cs : List Char) : value? (n + 1) ('[' :: cs) =
    (enclosed? (value? n) ']' n cs).map fun (vs, rest) => (.array vs, rest) := rfl

theorem value?_object (n : ℕ) (cs : List Char) : value? (n + 1) ('{' :: cs) =
    (enclosed? (field? (value? n) n) '}' n cs).map fun (fs, rest) => (.object fs, rest) := rfl

theorem value?_number {c : Char} (hc : c.isDigit = true) (n : ℕ) (cs : List Char) :
    value? (n + 1) (c :: cs) = (number? (c :: cs)).map fun (m, rest) => (.number m, rest) := by
  have hne : c ≠ '[' ∧ c ≠ '{' ∧ c ≠ '"' := by
    refine ⟨?_, ?_, ?_⟩ <;> (rintro rfl; cases hc)
  rw [value?, skip_cons (isSpace_of_isDigit hc)]
  split
  · next h => exact absurd (List.cons.inj h).1 hne.1
  · next h => exact absurd (List.cons.inj h).1 hne.2.1
  · next h => exact absurd (List.cons.inj h).1 hne.2.2
  · rfl

theorem length_textAt_array (level : ℕ) (v : Json) (vs : List Json) :
    (joined "," ((v :: vs).map (itemText (level + 1)))).length + 1 <
      (textAt level (.array (v :: vs))).length := by
  have hlength := congrArg List.length (toList_textAt_array level v vs)
  simp only [List.length_append, List.length_cons, String.length_toList] at hlength
  omega

theorem length_textAt_object (level : ℕ) (f : String × Json) (fs : List (String × Json)) :
    (joined "," ((f :: fs).map (fieldText (level + 1)))).length + 1 <
      (textAt level (.object (f :: fs))).length := by
  have hlength := congrArg List.length (toList_textAt_object level f fs)
  simp only [List.length_append, List.length_cons, String.length_toList] at hlength
  omega

theorem length_le_itemText (level : ℕ) (v : Json) :
    (textAt level v).length ≤ (itemText level v).length := by
  rw [itemText, String.length_append]
  exact Nat.le_add_left _ _

theorem length_lt_fieldText (level : ℕ) (f : String × Json) :
    f.1.length + (textAt level f.2).length < (fieldText level f).length := by
  have hkey := length_lt_doubleQuoted f.1
  have hlength := congrArg List.length (toList_fieldAt level f)
  simp only [List.length_append, List.length_cons, String.length_toList] at hlength
  rw [fieldText, String.length_append]
  omega

/-- A value is read from its text at every level, with fuel for the characters of the text. -/
theorem readsBack_textAt (v : Json) (level n : ℕ) (hn : (textAt level v).length < n) :
    ReadsBack (value? n) (textAt level) v := by
  induction v using Json.induct generalizing level n with
  | number m =>
    obtain ⟨n, rfl⟩ := Nat.exists_eq_succ_of_ne_zero (Nat.ne_zero_of_lt hn)
    intro rest h
    have hnumber := number?_toString m h
    obtain ⟨c, cs, hcs, hc⟩ := first_toString m
    rw [hcs, List.cons_append] at hnumber
    rw [textAt, hcs, List.cons_append, value?_number hc, hnumber, Option.map_some]
  | string s =>
    obtain ⟨n, rfl⟩ := Nat.exists_eq_succ_of_ne_zero (Nat.ne_zero_of_lt hn)
    intro rest _
    have hlength := length_lt_doubleQuoted s
    have hstring := string?_doubleQuoted (s := s) (n := n) (by rw [textAt] at hn; omega) rest
    rw [toList_doubleQuoted, List.cons_append] at hstring
    rw [textAt, toList_doubleQuoted, List.cons_append, value?_string, hstring, Option.map_some]
  | array vs ih =>
    obtain ⟨n, rfl⟩ := Nat.exists_eq_succ_of_ne_zero (Nat.ne_zero_of_lt hn)
    intro rest _
    cases vs with
    | nil => simp [textAt, value?_array, enclosed?, skip, isSpace]
    | cons v vs =>
      have hlength := length_textAt_array level v vs
      have hread : ∀ w ∈ v :: vs, ReadsBack (value? n) (itemText (level + 1)) w := by
        intro w hw
        have hitem := length_le_joined (List.mem_map_of_mem (f := itemText (level + 1)) hw)
        have htext := length_le_itemText (level + 1) w
        exact readsBack_item (ih w hw (level + 1) n (by omega))
      have hitems := enclosed?_joined (n := n) (.inl rfl) (blank_newLine level) hread
        (skip_itemText (level + 1) v) (by omega) rest
      rw [toList_textAt_array, List.cons_append, List.append_assoc, List.append_assoc,
        List.singleton_append, value?_array, hitems, Option.map_some]
  | object fs ih =>
    obtain ⟨n, rfl⟩ := Nat.exists_eq_succ_of_ne_zero (Nat.ne_zero_of_lt hn)
    intro rest _
    cases fs with
    | nil => simp [textAt, value?_object, enclosed?, skip, isSpace]
    | cons f fs =>
      have hlength := length_textAt_object level f fs
      have hread : ∀ g ∈ f :: fs, ReadsBack (field? (value? n) n) (fieldText (level + 1)) g := by
        intro g hg
        have hfield := length_le_joined (List.mem_map_of_mem (f := fieldText (level + 1)) hg)
        have htext := length_lt_fieldText (level + 1) g
        exact readsBack_field (by omega) (ih g hg (level + 1) n (by omega))
      have hfields := enclosed?_joined (n := n) (.inr rfl) (blank_newLine level) hread
        (skip_fieldText (level + 1) f) (by omega) rest
      rw [toList_textAt_object, List.cons_append, List.append_assoc, List.append_assoc,
        List.singleton_append, value?_object, hfields, Option.map_some]

/-- Whatever names occur in them, data are read back from their text as they were. -/
theorem decode?_text (v : Json) : decode? v.text = some v := by
  have hvalue : value? (v.text.length + 1) v.text.toList = some (v, []) := by
    have hrest := readsBack_textAt v 0 _ (Nat.lt_succ_self _) [] (by simp [EndsNumber])
    rwa [List.append_nil] at hrest
  rw [decode?, hvalue]
  rfl

/-- The reader takes other texts as well. -/
example : decode? "\x7b\"k\\u00e9\" :[ 0,\"\\ud83d\\ude00\\/\"]\t\x7d" =
    some (.object [("ké", .array [.number 0, .string "😀/"])]) := by rfl

example : decode? "[01]" = none ∧ decode? "[1,]" = none ∧ decode? "\"\\ud83d\"" = none ∧
    decode? "\"\n\"" = none := ⟨rfl, rfl, rfl, rfl⟩

end values

end Json

end SyncCircuit
