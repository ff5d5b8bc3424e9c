import Mathlib.Computability.Language
import Mathlib.Data.List.TakeWhile
import SyncCircuit.Token.Scan

/-!
The lexical grammar as regular languages: blanks, comments and the words of each kind of token. The
first piece that a scan takes is the longest word of these languages with which the text begins.
-/

namespace SyncCircuit

open scoped Computability

def oneOf (p : Char → Bool) : Language Char := {w | ∃ c, p c = true ∧ w = [c]}

section languages

variable {p q : Char → Bool} {L : Language Char} {c : Char} {w a b cs : List Char}

theorem cons_mem_oneOf_mul : c :: w ∈ oneOf p * L ↔ p c = true ∧ w ∈ L := by
  rw [Language.mem_mul]
  constructor
  · rintro ⟨_, ⟨d, hd, rfl⟩, v, hv, heq⟩
    obtain ⟨rfl, rfl⟩ := List.cons.inj heq
    exact ⟨hd, hv⟩
  · rintro ⟨hc, hw⟩
    exact ⟨[c], ⟨c, hc, rfl⟩, w, hw, rfl⟩

theorem nil_notMem_oneOf_mul : [] ∉ oneOf p * L := by
  rw [Language.mem_mul]
  rintro ⟨_, ⟨d, _, rfl⟩, v, _, heq⟩
  cases heq

theorem kstar_mul_eq (K L : Language Char) : K∗ * L = L + K * (K∗ * L) := by
  calc
    K∗ * L = (1 + K * K∗) * L := by rw [Language.one_add_self_mul_kstar_eq_kstar]
    _ = L + K * (K∗ * L) := by rw [add_mul, one_mul, mul_assoc]

theorem cons_mem_many_mul :
    c :: w ∈ (oneOf p)∗ * L ↔ c :: w ∈ L ∨ p c = true ∧ w ∈ (oneOf p)∗ * L := by
  conv_lhs => rw [kstar_mul_eq, Language.mem_add, cons_mem_oneOf_mul]

theorem nil_mem_many_mul : [] ∈ (oneOf p)∗ * L ↔ [] ∈ L := by
  rw [kstar_mul_eq, Language.mem_add, or_iff_left nil_notMem_oneOf_mul]

theorem mem_many : w ∈ (oneOf p)∗ ↔ ∀ c ∈ w, p c = true := by
  have h : w ∈ (oneOf p)∗ * 1 ↔ ∀ c ∈ w, p c = true := by
    induction w with
    | nil => simp only [nil_mem_many_mul, Language.nil_mem_one, List.not_mem_nil, false_imp_iff,
        implies_true]
    | cons c w ih => simp only [cons_mem_many_mul, Language.mem_one, reduceCtorEq, false_or, ih,
        List.forall_mem_cons]
  rwa [mul_one] at h

theorem mem_many_mul : w ∈ (oneOf p)∗ * L ↔ ∃ a b, w = a ++ b ∧ (∀ c ∈ a, p c = true) ∧ b ∈ L := by
  rw [Language.mem_mul]
  constructor
  · rintro ⟨a, ha, b, hb, rfl⟩
    exact ⟨a, b, rfl, mem_many.mp ha, hb⟩
  · rintro ⟨a, b, rfl, ha, hb⟩
    exact ⟨a, mem_many.mpr ha, b, hb, rfl⟩

end languages

/-- Pattern `\s*`. -/
def blanks : Language Char := (oneOf Text.isBlank)∗

/-- Pattern `//[^\n\r]*[\n\r]*`. -/
def lineComments : Language Char :=
  {['/', '/']} * ((oneOf (!isLineBreak ·))∗ * (oneOf isLineBreak)∗)

/-- The end of a comment, after all stars that stand together: `(?:[^/*][^*]*\*+)*/`. -/
def commentEnds : Language Char :=
  (oneOf (fun c => c != '/' && c != '*') *
    ((oneOf (· != '*'))∗ * (oneOf (· == '*') * (oneOf (· == '*'))∗)))∗ * {['/']}

/-- The end of a comment, after a star: `\**(?:[^/*][^*]*\*+)*/`. -/
def commentTails : Language Char := (oneOf (· == '*'))∗ * commentEnds

/-- What follows the opening of a comment: `[^*]*\*+(?:[^/*][^*]*\*+)*/`. -/
def commentBodies : Language Char := (oneOf (· != '*'))∗ * (oneOf (· == '*') * commentTails)

/-- Pattern `/\*[^*]*\*+(?:[^/*][^*]*\*+)*/`. -/
def blockComments : Language Char := {['/', '*']} * commentBodies

/-- Pattern `[01]+`. -/
def bitStrings : Language Char := oneOf isBit * (oneOf isBit)∗

/-- Pattern `[A-Za-z_][A-Za-z0-9_]*'?`. -/
def names : Language Char := oneOf isNameStart * ((oneOf isNamePart)∗ * ({['\'']} + 1))

/-- A word of the lexical grammar with the token it is, if it is one. -/
inductive Piece : Option Token → List Char → Prop where
  | blank {w : List Char} : w ∈ blanks → Piece none w
  | lineComment {w : List Char} : w ∈ lineComments → Piece none w
  | blockComment {w : List Char} : w ∈ blockComments → Piece none w
  | mark (m : Mark) : Piece (some (.mark m)) m.spelling.toList
  | bits {w : List Char} : w ∈ bitStrings → Piece (some (.bits (w.map (· == '1')))) w
  | name {w : List Char} : w ∈ names → Piece (some (.name (String.ofList w))) w

structure Longest (k : Option Token) (w rest : List Char) : Prop where
  piece : Piece k w
  ne_nil : w ≠ []
  longest : ∀ k' w', Piece k' w' → w' <+: w ++ rest → w'.length ≤ w.length

section comments

variable {c : Char} {w rest cs : List Char}

theorem cons_mem_commentBodies : c :: w ∈ commentBodies ↔
    c = '*' ∧ w ∈ commentTails ∨ c ≠ '*' ∧ w ∈ commentBodies := by
  simp only [commentBodies, cons_mem_many_mul, cons_mem_oneOf_mul, beq_iff_eq, bne_iff_ne]

theorem nil_notMem_commentBodies : [] ∉ commentBodies := by
  rw [commentBodies, nil_mem_many_mul]
  exact nil_notMem_oneOf_mul

theorem cons_mem_commentEnds : c :: w ∈ commentEnds ↔
    c = '/' ∧ w = [] ∨ (c ≠ '/' ∧ c ≠ '*') ∧ w ∈ commentBodies := by
  rw [commentEnds, kstar_mul_eq, Language.mem_add, ← commentEnds]
  simp only [mul_assoc, cons_mem_oneOf_mul, Bool.and_eq_true, bne_iff_ne]
  rw [← commentTails, ← commentBodies]
  refine or_congr_left ?_
  rw [show (c :: w ∈ ({['/']} : Language Char)) ↔ c :: w = ['/'] from Iff.rfl, List.cons.injEq]

theorem cons_mem_commentTails : c :: w ∈ commentTails ↔
    (c = '/' ∧ w = [] ∨ (c ≠ '/' ∧ c ≠ '*') ∧ w ∈ commentBodies) ∨
      c = '*' ∧ w ∈ commentTails := by
  conv_lhs => rw [commentTails, cons_mem_many_mul, cons_mem_commentEnds, ← commentTails]
  simp only [beq_iff_eq]

theorem nil_notMem_commentTails : [] ∉ commentTails := by
  rw [commentTails, nil_mem_many_mul, commentEnds, kstar_mul_eq, Language.mem_add, mul_assoc]
  rintro (h | h)
  · cases h
  · exact nil_notMem_oneOf_mul h

theorem closeComment?_cons_of_ne (hc : c ≠ '*') :
    closeComment? (c :: cs) = (closeComment? cs).map fun (body, after) => (c :: body, after) := by
  rw [closeComment?]
  exact fun _ h => absurd h hc

theorem closeComment?_star_cons_of_ne (hc : c ≠ '/') : closeComment? ('*' :: c :: cs) =
    (closeComment? (c :: cs)).map fun (body, after) => ('*' :: body, after) := by
  rw [closeComment?]
  exact fun _ _ h => absurd (List.cons.inj h).1 hc

/-- Both states of being within a comment, before and after a star, for the induction. -/
theorem closeComment?_append (w rest : List Char) :
    (w ∈ commentBodies → closeComment? (w ++ rest) = some (w, rest)) ∧
      (w ∈ commentTails → closeComment? ('*' :: (w ++ rest)) = some ('*' :: w, rest)) := by
  induction w with
  | nil =>
    exact ⟨fun h => absurd h nil_notMem_commentBodies, fun h => absurd h nil_notMem_commentTails⟩
  | cons c w ih =>
    refine ⟨fun h => ?_, fun h => ?_⟩
    · rcases cons_mem_commentBodies.mp h with ⟨rfl, hw⟩ | ⟨hc, hw⟩
      · exact ih.2 hw
      · rw [List.cons_append, closeComment?_cons_of_ne hc, ih.1 hw]
        rfl
    · rcases cons_mem_commentTails.mp h with (⟨rfl, rfl⟩ | ⟨⟨hs, hc⟩, hw⟩) | ⟨rfl, hw⟩
      · rfl
      · rw [List.cons_append, closeComment?_star_cons_of_ne hs, closeComment?_cons_of_ne hc,
          ih.1 hw]
        rfl
      · rw [List.cons_append, closeComment?_star_cons_of_ne (by decide), ih.2 hw]
        rfl

theorem mem_commentBodies_of_closeComment? (h : closeComment? cs = some (w, rest)) :
    w ∈ commentBodies := by
  fun_induction closeComment? cs generalizing w rest with
  | case1 => cases h
  | case2 =>
    cases h
    have hslash : ['/'] ∈ commentTails := cons_mem_commentTails.mpr (Or.inl (Or.inl ⟨rfl, rfl⟩))
    exact cons_mem_commentBodies.mpr (Or.inl ⟨rfl, hslash⟩)
  | case3 c cs hne ih =>
    obtain ⟨⟨body, after⟩, hb, heq⟩ := Option.map_eq_some_iff.mp h
    cases heq
    have hbody := ih hb
    rw [cons_mem_commentBodies]
    by_cases hc : c = '*'
    · refine Or.inl ⟨hc, ?_⟩
      -- The comment is not closed yet, so its body does not go on with a slash.
      cases body with
      | nil => exact absurd hbody nil_notMem_commentBodies
      | cons d body =>
        have hd : d ≠ '/' := by
          rintro rfl
          exact hne _ hc (append_of_closeComment? hb).symm
        rw [cons_mem_commentTails]
        rcases cons_mem_commentBodies.mp hbody with ⟨rfl, ht⟩ | ⟨hs, hw⟩
        · exact Or.inr ⟨rfl, ht⟩
        · exact Or.inl (Or.inr ⟨⟨hd, hs⟩, hw⟩)
    · exact Or.inr ⟨hc, hbody⟩

end comments

section classes

variable {c : Char}

theorem isNamePart_of_isNameStart (h : isNameStart c = true) : isNamePart c = true := by
  simp only [isNameStart, isNamePart, Char.isAlphanum, Bool.or_eq_true] at h ⊢
  exact h.imp_left Or.inl

theorem isBit_iff : isBit c = true ↔ c = '0' ∨ c = '1' := by
  simp [isBit]

theorem isNameStart_bounds (h : isNameStart c = true) : 65 ≤ c.toNat ∧ c.toNat ≤ 122 := by
  have hc : (decide (65 ≤ c.val ∧ c.val ≤ 90) || (97 ≤ c.val && c.val ≤ 122) || c = '_') = true := h
  simp only [Bool.or_eq_true, Bool.and_eq_true, decide_eq_true_eq] at hc
  rcases hc with (⟨h, h'⟩ | ⟨h, h'⟩) | h
  · exact ⟨UInt32.le_iff_toNat_le.mp h, (UInt32.le_iff_toNat_le.mp h').trans (by decide)⟩
  · exact ⟨le_trans (by decide) (UInt32.le_iff_toNat_le.mp h), UInt32.le_iff_toNat_le.mp h'⟩
  · subst h
    decide

theorem isBlank_of_isNameStart (h : isNameStart c = true) : Text.isBlank c = false := by
  have hb := isNameStart_bounds h
  simp only [Text.isBlank, Text.blankRanges, List.any_cons, List.any_nil, Bool.or_false,
    Bool.or_eq_false_iff, Bool.and_eq_false_iff, decide_eq_false_iff_not]
  omega

theorem isBit_of_isNameStart (h : isNameStart c = true) : isBit c = false := by
  have hb := isNameStart_bounds h
  rw [Bool.eq_false_iff]
  intro hbit
  rcases isBit_iff.mp hbit with rfl | rfl <;> exact absurd hb (by decide)

theorem isBlank_of_isBit (h : isBit c = true) : Text.isBlank c = false := by
  rcases isBit_iff.mp h with rfl | rfl <;> decide

end classes

theorem Piece.of_isBlank {k : Option Token} {c : Char} {v : List Char}
    (h : Piece k (c :: v)) (hb : Text.isBlank c = true) :
    k = none ∧ ∀ d ∈ c :: v, Text.isBlank d = true := by
  generalize hw : c :: v = w at h ⊢
  cases h with
  | blank h => exact ⟨rfl, mem_many.mp h⟩
  | lineComment h =>
    obtain ⟨_, rfl, u, hu, rfl⟩ := Language.mem_mul.mp h
    obtain ⟨rfl, -⟩ := List.cons.inj hw
    cases hb
  | blockComment h =>
    obtain ⟨_, rfl, u, hu, rfl⟩ := Language.mem_mul.mp h
    obtain ⟨rfl, -⟩ := List.cons.inj hw
    cases hb
  | mark m =>
    have hm : m.spelling.toList.head?.map Text.isBlank = some false := by
      cases m <;> decide
    rw [← hw] at hm
    rw [Option.some.inj hm] at hb
    cases hb
  | bits h =>
    subst hw
    rw [isBlank_of_isBit (cons_mem_oneOf_mul.mp h).1] at hb
    cases hb
  | name h =>
    subst hw
    rw [isBlank_of_isNameStart (cons_mem_oneOf_mul.mp h).1] at hb
    cases hb

namespace Lexeme

variable {k : Option Token} {c : Char} {w v rest cs : List Char} {l : Lexeme}

theorem first?_cons (hc : c ≠ '/') (cs : List Char) : first? (c :: cs) =
    if Text.isBlank c then some ⟨none, [c], cs⟩
    else if isBit c then some (ofBits (c :: cs))
    else if isNameStart c then some (ofName (c :: cs))
    else ofMark? (c :: cs) := by
  unfold first?
  split
  · next h => cases h
  · next h => exact absurd (List.cons.inj h).1 hc
  · next h => exact absurd (List.cons.inj h).1 hc
  · next h =>
    obtain ⟨rfl, rfl⟩ := List.cons.inj h
    rfl

theorem first?_of_isBit (hc : isBit c = true) (cs : List Char) :
    first? (c :: cs) = some (ofBits (c :: cs)) := by
  have hs : c ≠ '/' := by
    rintro rfl
    cases hc
  rw [first?_cons hs, if_neg (by simp [isBlank_of_isBit hc]), if_pos hc]

theorem first?_of_isNameStart (hc : isNameStart c = true) (cs : List Char) :
    first? (c :: cs) = some (ofName (c :: cs)) := by
  have hs : c ≠ '/' := by
    rintro rfl
    cases hc
  rw [first?_cons hs, if_neg (by simp [isBlank_of_isNameStart hc]),
    if_neg (by simp [isBit_of_isNameStart hc]), if_pos hc]

/-- The piece taken is at least as long as the word, and the same token where it is no longer. -/
structure Covers (l : Lexeme) (k : Option Token) (w : List Char) : Prop where
  length : w.length ≤ l.text.length
  token : w.length = l.text.length → l.token = k

theorem ofLineComment_covers {a b : List Char} (ha : ∀ c ∈ a, (!isLineBreak c) = true)
    (hb : ∀ c ∈ b, isLineBreak c = true) (rest : List Char) :
    (ofLineComment (a ++ (b ++ rest))).Covers none ('/' :: '/' :: (a ++ b)) := by
  refine ⟨?_, fun _ => rfl⟩
  simp only [ofLineComment, List.takeWhile_append_of_pos ha, List.dropWhile_append_of_pos ha,
    List.length_cons, List.length_append]
  cases b with
  | nil => simp only [List.length_nil]; omega
  | cons d b =>
    have hd : isLineBreak d = true := hb d List.mem_cons_self
    rw [List.cons_append, List.dropWhile_cons_of_neg (by simp [hd]), ← List.cons_append,
      List.takeWhile_append_of_pos hb, List.length_append]
    omega

theorem ofBits_covers (hw : ∀ c ∈ w, isBit c = true) (rest : List Char) :
    (ofBits (w ++ rest)).Covers (some (.bits (w.map (· == '1')))) w := by
  have ht : (w ++ rest).takeWhile isBit = w ++ rest.takeWhile isBit :=
    List.takeWhile_append_of_pos hw
  constructor
  · simp only [ofBits, ht, List.length_append]
    omega
  · intro hl
    simp only [ofBits, ht, List.length_append] at hl ⊢
    rw [List.length_eq_zero_iff.mp (by omega : (rest.takeWhile isBit).length = 0),
      List.append_nil]

theorem ofName_quote {a : List Char} (ha : ∀ c ∈ a, isNamePart c = true) (rest : List Char) :
    ofName (a ++ '\'' :: rest) =
      ⟨some (.name (String.ofList (a ++ ['\'']))), a ++ ['\''], rest⟩ := by
  have hq : ¬ isNamePart '\'' = true := by decide
  simp only [ofName, List.takeWhile_append_of_pos ha, List.dropWhile_append_of_pos ha,
    List.takeWhile_cons_of_neg hq, List.dropWhile_cons_of_neg hq, List.append_nil]

theorem ofName_covers {a : List Char} (ha : ∀ c ∈ a, isNamePart c = true) (rest : List Char) :
    (ofName (a ++ rest)).Covers (some (.name (String.ofList a))) a := by
  have ht : (a ++ rest).takeWhile isNamePart = a ++ rest.takeWhile isNamePart :=
    List.takeWhile_append_of_pos ha
  unfold ofName
  split
  · constructor
    · simp only [ht, List.length_append]
      omega
    · intro hl
      simp only [ht, List.length_append, List.length_singleton] at hl
      omega
  · constructor
    · simp only [ht, List.length_append]
      omega
    · intro hl
      simp only [ht, List.length_append] at hl ⊢
      rw [List.length_eq_zero_iff.mp (by omega : (rest.takeWhile isNamePart).length = 0),
        List.append_nil]

theorem first?_mark {m : Mark} (hm : m ≠ .negate) (rest : List Char) :
    first? (m.spelling.toList ++ rest) = some ⟨some (.mark m), m.spelling.toList, rest⟩ := by
  cases m <;> first | rfl | exact absurd rfl hm

theorem first?_slash (rest : List Char) :
    ∃ l, first? ('/' :: rest) = some l ∧ l.Covers (some (.mark .negate)) ['/'] := by
  unfold first?
  split
  · next h => cases h
  · exact ⟨_, rfl, by simp [ofLineComment], by simp [ofLineComment]⟩
  · split
    · exact ⟨_, rfl, by simp, by simp⟩
    · exact ⟨_, rfl, by simp, fun _ => rfl⟩
  · next h =>
    obtain ⟨rfl, rfl⟩ := List.cons.inj h
    have hl : ['/'].length ≤ Mark.negate.spelling.toList.length := by decide
    exact ⟨_, rfl, hl, fun _ => rfl⟩

theorem first?_covers (h : Piece k (c :: v)) (hb : Text.isBlank c = false) (rest : List Char) :
    ∃ l, first? (c :: v ++ rest) = some l ∧ l.Covers k (c :: v) := by
  generalize hw : c :: v = w at h ⊢
  cases h with
  | blank h =>
    subst hw
    have hc := mem_many.mp h c List.mem_cons_self
    rw [hb] at hc
    cases hc
  | lineComment h =>
    obtain ⟨_, rfl, u, hu, rfl⟩ := Language.mem_mul.mp h
    obtain ⟨a, b, rfl, ha, hb⟩ := mem_many_mul.mp hu
    have hcov := ofLineComment_covers ha (mem_many.mp hb) rest
    rw [← List.append_assoc] at hcov
    exact ⟨_, rfl, hcov⟩
  | blockComment h =>
    obtain ⟨_, rfl, u, hu, rfl⟩ := Language.mem_mul.mp h
    have hclose := (closeComment?_append u rest).1 hu
    refine ⟨⟨none, '/' :: '*' :: u, rest⟩, ?_, ⟨le_refl _, fun _ => rfl⟩⟩
    show first? ('/' :: '*' :: (u ++ rest)) = _
    rw [first?, hclose]
  | mark m =>
    by_cases hm : m = .negate
    · subst hm
      exact first?_slash rest
    · exact ⟨_, first?_mark hm rest, ⟨le_refl _, fun _ => rfl⟩⟩
  | bits h =>
    subst hw
    obtain ⟨hc, hv⟩ := cons_mem_oneOf_mul.mp h
    have hall : ∀ d ∈ c :: v, isBit d = true := List.forall_mem_cons.mpr ⟨hc, mem_many.mp hv⟩
    exact ⟨_, first?_of_isBit hc _, ofBits_covers hall rest⟩
  | name h =>
    subst hw
    obtain ⟨hc, hv⟩ := cons_mem_oneOf_mul.mp h
    obtain ⟨a, q, rfl, ha, hq⟩ := mem_many_mul.mp hv
    have hall : ∀ d ∈ c :: a, isNamePart d = true :=
      List.forall_mem_cons.mpr ⟨isNamePart_of_isNameStart hc, ha⟩
    refine ⟨_, first?_of_isNameStart hc (a ++ q ++ rest), ?_⟩
    rcases hq with rfl | rfl
    · have hn := ofName_quote hall rest
      rw [List.append_assoc, List.singleton_append, ← List.cons_append, hn]
      exact ⟨le_refl _, fun _ => rfl⟩
    · rw [List.append_nil]
      exact ofName_covers hall rest

theorem ofLineComment_piece (cs : List Char) : Piece none (ofLineComment cs).text := by
  refine .lineComment (Language.append_mem_mul (a := ['/', '/']) rfl
    (Language.append_mem_mul (mem_many.mpr fun c hc => ?_) (mem_many.mpr fun c hc => ?_)))
  · exact List.mem_takeWhile_imp (p := (!isLineBreak ·)) hc
  · exact List.mem_takeWhile_imp hc

theorem ofBits_piece (hc : isBit c = true) (cs : List Char) :
    Piece (ofBits (c :: cs)).token (ofBits (c :: cs)).text := by
  refine .bits ?_
  rw [List.takeWhile_cons_of_pos hc]
  exact cons_mem_oneOf_mul.mpr ⟨hc, mem_many.mpr fun d hd => List.mem_takeWhile_imp hd⟩

theorem ofName_piece (hc : isNameStart c = true) (cs : List Char) :
    Piece (ofName (c :: cs)).token (ofName (c :: cs)).text := by
  have mem : ∀ q ∈ ({['\'']} + 1 : Language Char),
      (c :: cs).takeWhile isNamePart ++ q ∈ names := by
    intro q hq
    rw [List.takeWhile_cons_of_pos (isNamePart_of_isNameStart hc)]
    exact cons_mem_oneOf_mul.mpr ⟨hc, Language.append_mem_mul
      (mem_many.mpr fun d hd => List.mem_takeWhile_imp hd) hq⟩
  unfold ofName
  split
  · exact .name (mem _ (Or.inl rfl))
  · have h := mem [] (Or.inr rfl)
    rw [List.append_nil] at h
    exact .name h

theorem first?_piece (h : first? cs = some l) : Piece l.token l.text := by
  unfold first? at h
  split at h
  · cases h
  · cases h
    exact ofLineComment_piece _
  · split at h
    · next hclose =>
      cases h
      exact .blockComment (Language.append_mem_mul (a := ['/', '*']) rfl
        (mem_commentBodies_of_closeComment? hclose))
    · cases h
      exact .mark .negate
  · split at h
    · next hb =>
      cases h
      exact .blank (mem_many.mpr fun d hd => by rwa [List.mem_singleton.mp hd])
    split at h
    · next hc =>
      cases h
      exact ofBits_piece hc _
    split at h
    · next hc =>
      cases h
      exact ofName_piece hc _
    · obtain ⟨m, _, rfl⟩ := Option.map_eq_some_iff.mp h
      exact .mark m

theorem Piece.mem_names {x : Name} {k : Option Token} {w : List Char} (h : Piece k w)
    (hk : k = some (.name x)) : w ∈ names := by
  cases h with
  | name hw => exact hw
  | _ => cases hk

theorem mem_names_of_first? {x : Name}
    (h : (first? x.toList).map (fun l => (l.token, l.text)) = some (some (.name x), x.toList)) :
    x.toList ∈ names := by
  obtain ⟨l, hl, heq⟩ := Option.map_eq_some_iff.mp h
  obtain ⟨htoken, htext⟩ := Prod.mk.inj heq
  rw [← htext]
  exact Piece.mem_names (first?_piece hl) htoken

/-- Where the text does not begin with a blank, the piece taken is the longest there is. -/
theorem first?_longest (hb : Text.isBlank c = false) (h : first? (c :: cs) = some l) :
    Longest l.token l.text l.rest := by
  obtain ⟨htext, hne⟩ := first?_text h
  refine ⟨first?_piece h, hne, fun k w hp hw => ?_⟩
  rw [htext] at hw
  obtain ⟨rest, heq⟩ := hw
  cases w with
  | nil => exact Nat.zero_le _
  | cons d v =>
    obtain ⟨rfl, -⟩ := List.cons.inj heq
    obtain ⟨l', hl', hcov⟩ := first?_covers hp hb rest
    rw [heq, h] at hl'
    cases hl'
    exact hcov.length

theorem first?_of_longest (hb : Text.isBlank c = false) (h : Longest k (c :: v) rest) :
    first? (c :: v ++ rest) = some ⟨k, c :: v, rest⟩ := by
  obtain ⟨l, hl, hcov⟩ := first?_covers h.piece hb rest
  obtain ⟨htext, -⟩ := first?_text hl
  have hlen : (c :: v).length = l.text.length :=
    Nat.le_antisymm hcov.length (h.longest _ _ (first?_piece hl) ⟨l.rest, htext⟩)
  obtain ⟨ht, hr⟩ := List.append_inj htext hlen.symm
  rw [hl, ← hcov.token hlen, ← ht, ← hr]

theorem first?_eq_none_iff (hb : Text.isBlank c = false) :
    first? (c :: cs) = none ↔ ∀ k w, Piece k w → w <+: c :: cs → w = [] := by
  constructor
  · rintro h k w hp ⟨rest, heq⟩
    cases w with
    | nil => rfl
    | cons d v =>
      obtain ⟨rfl, -⟩ := List.cons.inj heq
      obtain ⟨l, hl, -⟩ := first?_covers hp hb rest
      rw [heq, h] at hl
      cases hl
  · intro h
    cases hf : first? (c :: cs) with
    | none => rfl
    | some l =>
      obtain ⟨htext, hne⟩ := first?_text hf
      exact absurd (h _ _ (first?_piece hf) ⟨l.rest, htext⟩) hne

end Lexeme

end SyncCircuit
