import SyncCircuit.Proofs.Lexicon

/-!
A scan is the division of a text by maximal munch: at each offset the longest word of the lexical
grammar is taken, and where none begins the scan stops.
-/

namespace SyncCircuit

open Text (byteCount)

/-- The tokens of a text that starts at an offset, when the longest piece is always the next one. -/
inductive MaximalMunch : ℕ → List Char → Scan → Prop where
  | done {offset : ℕ} : MaximalMunch offset [] ⟨[], none⟩
  | stuck {offset : ℕ} {cs : List Char} : cs ≠ [] → (∀ k w, Piece k w → w <+: cs → w = []) →
      MaximalMunch offset cs ⟨[], some offset⟩
  | skip {offset : ℕ} {w rest : List Char} {s : Scan} : Longest none w rest →
      MaximalMunch (offset + byteCount w) rest s → MaximalMunch offset (w ++ rest) s
  | token {offset : ℕ} {t : Token} {w rest : List Char} {s : Scan} : Longest (some t) w rest →
      MaximalMunch (offset + byteCount w) rest s →
      MaximalMunch offset (w ++ rest) ⟨⟨t, offset, offset + byteCount w⟩ :: s.tokens, s.invalid⟩

namespace Scan

variable {c : Char} {w rest cs : List Char} {s : Scan} {offset : ℕ}

theorem ofChars_blank (hc : Text.isBlank c = true) (offset : ℕ) (cs : List Char) :
    ofChars 0 offset (c :: cs) = ofChars 0 (offset + c.utf8Size) cs := by
  have hs : c ≠ '/' := by
    rintro rfl
    cases hc
  have hf : Lexeme.first? (c :: cs) = some ⟨none, [c], cs⟩ := by
    rw [Lexeme.first?_cons hs, if_pos hc]
  rw [ofChars_zero hf]
  rfl

theorem ofChars_blanks (hw : ∀ c ∈ w, Text.isBlank c = true) (offset : ℕ) (rest : List Char) :
    ofChars 0 offset (w ++ rest) = ofChars 0 (offset + byteCount w) rest := by
  induction w generalizing offset with
  | nil => rfl
  | cons c w ih =>
    obtain ⟨hc, hw⟩ := List.forall_mem_cons.mp hw
    rw [List.cons_append, ofChars_blank hc, ih hw, Text.byteCount_cons, Nat.add_assoc]

theorem ofChars_of_longest {k : Option Token} (h : Longest k w rest) (offset : ℕ) :
    ofChars 0 offset (w ++ rest) =
      (ofChars 0 (offset + byteCount w) rest).withPiece k offset (offset + byteCount w) := by
  cases w with
  | nil => exact absurd rfl h.ne_nil
  | cons c v =>
    cases hb : Text.isBlank c with
    | true =>
      obtain ⟨rfl, hv⟩ := h.piece.of_isBlank hb
      exact ofChars_blanks hv offset rest
    | false => exact ofChars_zero (Lexeme.first?_of_longest hb h) offset

theorem ofChars_of_stuck (hne : cs ≠ []) (h : ∀ k w, Piece k w → w <+: cs → w = [])
    (offset : ℕ) : ofChars 0 offset cs = ⟨[], some offset⟩ := by
  cases cs with
  | nil => exact absurd rfl hne
  | cons c cs =>
    cases hb : Text.isBlank c with
    | true =>
      have hp : Piece none [c] :=
        .blank (mem_many.mpr fun d hd => by rwa [List.mem_singleton.mp hd])
      cases h none [c] hp ⟨cs, rfl⟩
    | false => simp only [ofChars, (Lexeme.first?_eq_none_iff hb).mpr h]

theorem ofChars_of_maximalMunch (h : MaximalMunch offset cs s) : ofChars 0 offset cs = s := by
  induction h with
  | done => rfl
  | stuck hne hno => exact ofChars_of_stuck hne hno _
  | skip hl _ ih =>
    rw [ofChars_of_longest hl, ih]
    rfl
  | token hl _ ih =>
    rw [ofChars_of_longest hl, ih]
    rfl

theorem longest_blanks (hc : Text.isBlank c = true) (cs : List Char) :
    Longest none (c :: cs.takeWhile Text.isBlank) (cs.dropWhile Text.isBlank) := by
  have hall : ∀ d ∈ c :: cs.takeWhile Text.isBlank, Text.isBlank d = true :=
    List.forall_mem_cons.mpr ⟨hc, fun d hd => List.mem_takeWhile_imp hd⟩
  refine ⟨.blank (mem_many.mpr hall), List.cons_ne_nil _ _, fun k w hp hw => ?_⟩
  rw [List.cons_append, List.takeWhile_append_dropWhile] at hw
  obtain ⟨rest, heq⟩ := hw
  cases w with
  | nil => exact Nat.zero_le _
  | cons d v =>
    rw [List.cons_append, List.cons.injEq] at heq
    obtain ⟨rfl, rfl⟩ := heq
    obtain ⟨-, hv⟩ := hp.of_isBlank hc
    rw [List.takeWhile_append_of_pos fun e he => hv e (List.mem_cons_of_mem d he)]
    simp only [List.length_cons, List.length_append]
    omega

theorem maximalMunch_withPiece {k : Option Token} (hl : Longest k w rest)
    (h : MaximalMunch (offset + byteCount w) rest s) :
    MaximalMunch offset (w ++ rest) (s.withPiece k offset (offset + byteCount w)) := by
  cases k with
  | none => exact .skip hl h
  | some t => exact .token hl h

theorem exists_longest (h : ∃ k w, Piece k w ∧ w <+: cs ∧ w ≠ []) :
    ∃ k w rest, Longest k w rest ∧ w ++ rest = cs := by
  cases cs with
  | nil =>
    obtain ⟨k, w, _, hw, hne⟩ := h
    exact absurd (List.prefix_nil.mp hw) hne
  | cons c cs =>
    cases hb : Text.isBlank c with
    | true => exact ⟨_, _, _, longest_blanks hb cs, by simp⟩
    | false =>
      cases hf : Lexeme.first? (c :: cs) with
      | none =>
        obtain ⟨k, w, hp, hw, hne⟩ := h
        exact absurd ((Lexeme.first?_eq_none_iff hb).mp hf k w hp hw) hne
      | some l => exact ⟨_, _, _, Lexeme.first?_longest hb hf, (Lexeme.first?_text hf).1⟩

theorem exists_maximalMunch (offset : ℕ) (cs : List Char) : ∃ s, MaximalMunch offset cs s := by
  induction hn : cs.length using Nat.strong_induction_on generalizing offset cs with
  | _ n ih =>
    by_cases hp : ∃ k w, Piece k w ∧ w <+: cs ∧ w ≠ []
    · obtain ⟨k, w, rest, hl, rfl⟩ := exists_longest hp
      have hpos : 0 < w.length := List.length_pos_of_ne_nil hl.ne_nil
      rw [List.length_append] at hn
      obtain ⟨s, hs⟩ := ih rest.length (by omega) (offset + byteCount w) rest rfl
      exact ⟨_, maximalMunch_withPiece hl hs⟩
    · push Not at hp
      by_cases hne : cs = []
      · subst hne
        exact ⟨_, .done⟩
      · exact ⟨_, .stuck hne hp⟩

theorem ofText_eq_iff {text : String} {s : Scan} :
    ofText text = s ↔ MaximalMunch 0 text.toList s := by
  constructor
  · rintro rfl
    obtain ⟨s, hs⟩ := exists_maximalMunch 0 text.toList
    rw [ofText, ofChars_of_maximalMunch hs]
    exact hs
  · exact ofChars_of_maximalMunch

end Scan

theorem byteCount_toList (text : String) : byteCount text.toList = text.utf8ByteSize := by
  suffices h : ∀ cs, byteCount cs = (String.ofList cs).utf8ByteSize by
    rw [h, String.ofList_toList]
  intro cs
  induction cs with
  | nil => rfl
  | cons c cs ih =>
    rw [String.ofList_cons, String.utf8ByteSize_append, String.utf8ByteSize_singleton, ← ih,
      Text.byteCount_cons]

namespace MaximalMunch

variable {offset : ℕ} {cs : List Char} {s : Scan}

theorem token_bounds (h : MaximalMunch offset cs s) :
    ∀ p ∈ s.tokens, p.start ≤ p.stop ∧ p.stop ≤ offset + byteCount cs := by
  induction h with
  | done => simp
  | stuck => simp
  | skip _ _ ih =>
    rw [Text.byteCount_append, ← Nat.add_assoc]
    exact ih
  | token _ _ ih =>
    rw [Text.byteCount_append, ← Nat.add_assoc]
    exact List.forall_mem_cons.mpr ⟨⟨Nat.le_add_right _ _, Nat.le_add_right _ _⟩, ih⟩

theorem bits_ne_nil (h : MaximalMunch offset cs s) :
    ∀ p ∈ s.tokens, ∀ values, p.token = .bits values → values ≠ [] := by
  induction h with
  | done => simp
  | stuck => simp
  | skip _ _ ih => exact ih
  | token hl _ ih =>
    refine List.forall_mem_cons.mpr ⟨?_, ih⟩
    rintro values rfl
    cases hl.piece with
    | bits => exact mt List.map_eq_nil_iff.mp hl.ne_nil

theorem mem_names (h : MaximalMunch offset cs s) :
    ∀ p ∈ s.tokens, ∀ x, p.token = .name x → x.toList ∈ names := by
  induction h with
  | done => simp
  | stuck => simp
  | skip _ _ ih => exact ih
  | token hl _ ih =>
    refine List.forall_mem_cons.mpr ⟨?_, ih⟩
    rintro x rfl
    cases hl.piece with
    | name hw => rwa [String.toList_ofList]

theorem stuck_at (h : MaximalMunch offset cs s) : ∀ b ∈ s.invalid, ∃ before after,
    cs = before ++ after ∧ b = offset + byteCount before ∧ after ≠ [] ∧
      ∀ k w, Piece k w → w <+: after → w = [] := by
  induction h with
  | done => simp
  | @stuck offset cs hne hno =>
    intro b hb
    obtain rfl := Option.mem_some_iff.mp hb
    exact ⟨[], cs, rfl, rfl, hne, hno⟩
  | @skip offset w rest s _ _ ih =>
    intro b hb
    obtain ⟨before, after, rfl, rfl, hne, hno⟩ := ih b hb
    refine ⟨w ++ before, after, (List.append_assoc _ _ _).symm, ?_, hne, hno⟩
    rw [Text.byteCount_append, Nat.add_assoc]
  | @token offset t w rest s _ _ ih =>
    intro b hb
    obtain ⟨before, after, rfl, rfl, hne, hno⟩ := ih b hb
    refine ⟨w ++ before, after, (List.append_assoc _ _ _).symm, ?_, hne, hno⟩
    rw [Text.byteCount_append, Nat.add_assoc]

end MaximalMunch

end SyncCircuit
