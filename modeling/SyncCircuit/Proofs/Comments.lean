import SyncCircuit.Proofs.Lexing

/-!
Where comments end. A comment that begins with `/*` ends with the first `*/` after that, and where
there is none it is no comment; one that begins with `//` ends with the first line break after that
and those that follow it immediately, or with the text.
-/

namespace SyncCircuit

open Text (byteCount)

structure FirstEnd (cs body after : List Char) : Prop where
  split : cs = body ++ '*' :: '/' :: after
  first : ∀ b a, cs = b ++ '*' :: '/' :: a → body.length ≤ b.length

/-- A text has all the line breaks that stand at its first line break between `line` and `after`. -/
structure LineEnd (cs line breaks after : List Char) : Prop where
  split : cs = line ++ (breaks ++ after)
  unbroken : ∀ c ∈ line, isLineBreak c = false
  broken : ∀ c ∈ breaks, isLineBreak c = true
  stops : ∀ c ∈ after.head?, isLineBreak c = false
  ends : breaks = [] → after = []

section ends

variable {c : Char} {cs body after line breaks w : List Char}

theorem firstEnd_close : FirstEnd ('*' :: '/' :: cs) body after ↔ body = [] ∧ after = cs := by
  constructor
  · intro h
    have hbody : body = [] := List.length_eq_zero_iff.mp (Nat.le_zero.mp (h.first [] cs rfl))
    have hsplit := h.split
    rw [hbody] at hsplit
    exact ⟨hbody, ((List.cons.inj (List.cons.inj hsplit).2).2).symm⟩
  · rintro ⟨rfl, rfl⟩
    exact ⟨rfl, fun b a _ => Nat.zero_le _⟩

theorem firstEnd_cons (hne : ∀ rest, c = '*' → cs = '/' :: rest → False) :
    FirstEnd (c :: cs) body after ↔ ∃ b, body = c :: b ∧ FirstEnd cs b after := by
  constructor
  · intro h
    have hsplit := h.split
    cases body with
    | nil =>
      obtain ⟨hc, hcs⟩ := List.cons.inj hsplit
      exact absurd hcs (hne _ hc)
    | cons d b =>
      obtain ⟨rfl, hcs⟩ := List.cons.inj hsplit
      refine ⟨b, rfl, hcs, fun b' a hb' => ?_⟩
      have hle := h.first (c :: b') a (congrArg (c :: ·) hb')
      exact Nat.le_of_succ_le_succ hle
  · rintro ⟨b, rfl, h⟩
    refine ⟨congrArg (c :: ·) h.split, fun b' a hb' => ?_⟩
    cases b' with
    | nil =>
      obtain ⟨hc, hcs⟩ := List.cons.inj hb'
      exact absurd hcs (hne _ hc)
    | cons d b' => exact Nat.succ_le_succ (h.first b' a (List.cons.inj hb').2)

theorem closeComment?_eq_some_iff : closeComment? cs = some (w, after) ↔
    ∃ body, w = body ++ ['*', '/'] ∧ FirstEnd cs body after := by
  fun_induction closeComment? cs generalizing w with
  | case1 =>
    constructor
    · intro h
      cases h
    · rintro ⟨body, -, h⟩
      exact absurd h.split (by simp)
  | case2 cs =>
    simp only [firstEnd_close, Option.some.injEq, Prod.mk.injEq]
    constructor
    · rintro ⟨rfl, rfl⟩
      exact ⟨[], rfl, rfl, rfl⟩
    · rintro ⟨body, rfl, rfl, rfl⟩
      exact ⟨rfl, rfl⟩
  | case3 c cs hne ih =>
    simp only [firstEnd_cons hne, Option.map_eq_some_iff, Prod.mk.injEq, Prod.exists]
    constructor
    · rintro ⟨v, a, hv, rfl, rfl⟩
      obtain ⟨body, rfl, h⟩ := ih.mp hv
      exact ⟨c :: body, rfl, body, rfl, h⟩
    · rintro ⟨_, rfl, body, rfl, h⟩
      exact ⟨body ++ ['*', '/'], after, ih.mpr ⟨body, rfl, h⟩, rfl, rfl⟩

theorem firstEnd_of_closeComment? (h : closeComment? cs = some (body ++ ['*', '/'], after)) :
    FirstEnd cs body after := by
  obtain ⟨b, hb, hend⟩ := closeComment?_eq_some_iff.mp h
  obtain rfl := List.append_inj_left' hb rfl
  exact hend

theorem closeComment?_eq_none_iff : closeComment? cs = none ↔ ¬ ['*', '/'] <:+: cs := by
  fun_induction closeComment? cs with
  | case1 => simp
  | case2 cs => simpa using (List.prefix_append ['*', '/'] cs).isInfix
  | case3 c cs hne ih =>
    have hstart : ¬ ['*', '/'] <+: c :: cs := by
      rintro ⟨rest, heq⟩
      obtain ⟨hc, hcs⟩ := List.cons.inj heq
      exact hne rest hc.symm hcs.symm
    rw [Option.map_eq_none_iff, ih, List.infix_cons_iff, or_iff_right hstart]

theorem exists_firstEnd (h : ['*', '/'] <:+: cs) : ∃ body after, FirstEnd cs body after := by
  cases hc : closeComment? cs with
  | none => exact absurd h (closeComment?_eq_none_iff.mp hc)
  | some p =>
    obtain ⟨body, -, hbody⟩ := closeComment?_eq_some_iff.mp hc
    exact ⟨body, p.2, hbody⟩

theorem head_dropWhile {p : Char → Bool} (h : cs.dropWhile p = c :: w) : p c = false := by
  have hhead := List.head?_dropWhile_not p cs
  rw [h] at hhead
  exact hhead

theorem exists_lineEnd (cs : List Char) : ∃ line breaks after, LineEnd cs line breaks after := by
  obtain ⟨rest, hrest⟩ : ∃ rest, cs.dropWhile (!isLineBreak ·) = rest := ⟨_, rfl⟩
  refine ⟨cs.takeWhile (!isLineBreak ·), rest.takeWhile isLineBreak, rest.dropWhile isLineBreak,
    ?_, ?_, ?_, ?_, ?_⟩
  · rw [List.takeWhile_append_dropWhile, ← hrest, List.takeWhile_append_dropWhile]
  · intro c hc
    simpa using List.mem_takeWhile_imp hc
  · exact fun c hc => List.mem_takeWhile_imp hc
  · intro c hc
    obtain ⟨after, hafter⟩ := List.head?_eq_some_iff.mp hc
    exact head_dropWhile hafter
  · intro hbreaks
    cases rest with
    | nil => rfl
    | cons c rest =>
      have hc : isLineBreak c = true := by simpa using head_dropWhile hrest
      rw [List.takeWhile_cons_of_pos hc] at hbreaks
      cases hbreaks

theorem LineEnd.ofLineComment (h : LineEnd cs line breaks after) :
    Lexeme.ofLineComment cs = ⟨none, '/' :: '/' :: (line ++ breaks), after⟩ := by
  obtain ⟨rfl, hline, hbreaks, hstop, hend⟩ := h
  have hline : ∀ c ∈ line, (!isLineBreak c) = true := fun c hc => by rw [hline c hc]; rfl
  have hfirst : (breaks ++ after).takeWhile (!isLineBreak ·) = [] ∧
      (breaks ++ after).dropWhile (!isLineBreak ·) = breaks ++ after := by
    cases breaks with
    | nil =>
      rw [hend rfl]
      exact ⟨rfl, rfl⟩
    | cons c breaks => simp [hbreaks c List.mem_cons_self]
  have hlast : after.takeWhile isLineBreak = [] ∧ after.dropWhile isLineBreak = after := by
    cases after with
    | nil => exact ⟨rfl, rfl⟩
    | cons c after => simp [hstop c rfl]
  simp only [Lexeme.ofLineComment, List.takeWhile_append_of_pos hline,
    List.dropWhile_append_of_pos hline, hfirst, List.takeWhile_append_of_pos hbreaks,
    List.dropWhile_append_of_pos hbreaks, hlast, List.append_nil]

end ends

namespace Scan

/-- How far the scan of a text can have come: the tokens found, the offset, and what comes after. -/
inductive Reaches (text : String) : List Placed → ℕ → List Char → Prop where
  | start : Reaches text [] 0 text.toList
  | step {ps : List Placed} {offset : ℕ} {cs : List Char} {l : Lexeme} :
      Reaches text ps offset cs → Lexeme.first? cs = some l →
      Reaches text (ps ++ (l.token.map (⟨·, offset, offset + byteCount l.text⟩)).toList)
        (offset + byteCount l.text) l.rest

def behind (ps : List Placed) (s : Scan) : Scan := ⟨ps ++ s.tokens, s.invalid⟩

/-- From where it has come, the scan of a text takes a piece, the longest there is, and goes on
after it. -/
structure Takes (text : String) (ps : List Placed) (offset : ℕ) (k : Option Token)
    (w rest : List Char) : Prop where
  longest : Longest k w rest
  first : Lexeme.first? (w ++ rest) = some ⟨k, w, rest⟩
  scan : ofText text = ((ofChars 0 (offset + byteCount w) rest).withPiece k offset
    (offset + byteCount w)).behind ps

variable {text : String} {ps : List Placed} {offset : ℕ} {c : Char} {cs w rest : List Char}
variable {k : Option Token}

theorem Reaches.ofText (h : Reaches text ps offset cs) :
    ofText text = (ofChars 0 offset cs).behind ps := by
  induction h with
  | start => rfl
  | @step ps offset cs l _ hl ih =>
    rw [ih, ofChars_zero hl]
    cases l.token <;> simp [withPiece, behind]

theorem Reaches.takes (h : Reaches text ps offset (c :: cs)) (hc : Text.isBlank c = false)
    (hf : Lexeme.first? (c :: cs) = some ⟨k, w, rest⟩) : Takes text ps offset k w rest where
  longest := Lexeme.first?_longest hc hf
  first := by rw [(Lexeme.first?_text hf).1, hf]
  scan := by rw [h.ofText, ofChars_zero hf]

/-- Where a scan comes to `/*` it skips everything up to the first `*/` after that, and if there is
none it takes the slash as a token. Where it comes to `//` it skips everything up to the first line
break, with all line breaks that follow each other there, or else the whole text. -/
theorem comments_end :
    (Reaches text ps offset ('/' :: '*' :: cs) →
      (∀ body after, FirstEnd cs body after →
        Takes text ps offset none ('/' :: '*' :: (body ++ ['*', '/'])) after) ∧
      (['*', '/'] <:+: cs → ∃ body after, FirstEnd cs body after) ∧
      (¬ ['*', '/'] <:+: cs →
        Takes text ps offset (some (.mark .negate)) ['/'] ('*' :: cs))) ∧
    (Reaches text ps offset ('/' :: '/' :: cs) →
      (∀ line breaks after, LineEnd cs line breaks after →
        Takes text ps offset none ('/' :: '/' :: (line ++ breaks)) after) ∧
      ∃ line breaks after, LineEnd cs line breaks after) := by
  refine ⟨fun h => ⟨fun body after hend => ?_, exists_firstEnd, fun hno => ?_⟩,
    fun h => ⟨fun line breaks after hend => ?_, exists_lineEnd cs⟩⟩
  · have hclose : closeComment? cs = some (body ++ ['*', '/'], after) :=
      closeComment?_eq_some_iff.mpr ⟨body, rfl, hend⟩
    exact h.takes rfl (by rw [Lexeme.first?, hclose])
  · have hclose := closeComment?_eq_none_iff.mpr hno
    exact h.takes rfl (by rw [Lexeme.first?, hclose])
  · exact h.takes rfl (by rw [Lexeme.first?, hend.ofLineComment])

/-- Between `/*` and `*/` there must be room for both, and neither another `/*` nor more stars and
slashes make a difference. -/
theorem comments_end_nested : ∃ text : String, text = "/*/ /* ***///*\r\n\n/*" ∧
    (Reaches text [] 0 text.toList ∧
      Takes text [] 0 none "/*/ /* ***/".toList "//*\r\n\n/*".toList) ∧
    (Reaches text [] 11 "//*\r\n\n/*".toList ∧
      Takes text [] 11 none "//*\r\n\n".toList "/*".toList) ∧
    Reaches text [] 17 "/*".toList ∧ Takes text [] 17 (some (.mark .negate)) ['/'] ['*'] := by
  have hstart : Reaches "/*/ /* ***///*\r\n\n/*" [] 0 "/*/ /* ***///*\r\n\n/*".toList := .start
  have hclose : closeComment? "/ /* ***///*\r\n\n/*".toList =
      some ("/ /* **".toList ++ ['*', '/'], "//*\r\n\n/*".toList) := rfl
  have htakes := (comments_end.1 hstart).1 _ _ (firstEnd_of_closeComment? hclose)
  have hline : LineEnd "*\r\n\n/*".toList ['*'] ['\r', '\n', '\n'] ['/', '*'] :=
    ⟨rfl, by simp [isLineBreak], by simp [isLineBreak], by simp [isLineBreak], by simp⟩
  have hsecond := hstart.step htakes.first
  have hskips := (comments_end.2 hsecond).1 _ _ _ hline
  have hthird := hsecond.step hskips.first
  exact ⟨_, rfl, ⟨hstart, htakes⟩, ⟨hsecond, hskips⟩, hthird,
    (comments_end.1 hthird).2.2 (by decide)⟩

end Scan

end SyncCircuit
