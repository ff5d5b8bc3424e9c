import SyncCircuit.Proofs.Comments
import SyncCircuit.Proofs.Listing

/-!
The layout of a text does not matter. Tokens that are written down with blanks and comments between
them are found again, each where it was put, and what a reader makes of them depends on nothing
else.
-/

namespace SyncCircuit

open Text (byteCount isBlank)

/-- Blanks, comments that end with their first `*/` and comments that end with a line break. -/
inductive Filler : List Char → Prop where
  | nil : Filler []
  | blank {c : Char} {w : List Char} : isBlank c = true → Filler w → Filler (c :: w)
  | block {body w : List Char} : FirstEnd (body ++ ['*', '/']) body [] → Filler w →
      Filler ('/' :: '*' :: (body ++ ['*', '/'] ++ w))
  | line {line : List Char} {c : Char} {w : List Char} : OneLine line → isLineBreak c = true →
      Filler w → Filler ('/' :: '/' :: (line ++ c :: w))

def Token.Word : Token → Prop
  | mark _ => True
  | bits values => values ≠ []
  | name x => x.toList ∈ names

/-- Tokens, each with what stands after it, and what stands before the first. -/
structure Layout where
  lead : List Char
  items : List (Token × List Char)

namespace Layout

def chars : List (Token × List Char) → List Char
  | [] => []
  | (t, gap) :: items => t.text.toList ++ (gap ++ chars items)

def place (offset : ℕ) : List (Token × List Char) → List Placed
  | [] => []
  | (t, gap) :: items =>
    ⟨t, offset, offset + byteCount t.text.toList⟩ ::
      place (offset + byteCount t.text.toList + byteCount gap) items

def text (l : Layout) : String := String.ofList (l.lead ++ chars l.items)

def placed (l : Layout) : List Placed := place (byteCount l.lead) l.items

def tokens (l : Layout) : List Token := l.items.map Prod.fst

/-- After each token comes a blank, only after the last one there may be nothing. -/
inductive Separated : List (Token × List Char) → Prop where
  | nil : Separated []
  | cons {t : Token} {gap : List Char} {items : List (Token × List Char)} : t.Word → Filler gap →
      (∀ c ∈ gap.head?, isBlank c = true) → (gap = [] → items = []) → Separated items →
      Separated ((t, gap) :: items)

structure Clear (l : Layout) : Prop where
  lead : Filler l.lead
  items : Separated l.items

end Layout

def Placed.StandsIn (p : Placed) (cs : List Char) : Prop :=
  ∃ before after, cs = before ++ (p.token.text.toList ++ after) ∧ p.start = byteCount before ∧
    p.stop = p.start + byteCount p.token.text.toList

/-- The same value, or the same message at the same token or at the end of the last one. -/
inductive SameReading {α : Type} (l m : Layout) : Except Fault α → Except Fault α → Prop where
  | value (a : α) : SameReading l m (.ok a) (.ok a)
  | token {p q : Placed} (message : String) : (p, q) ∈ l.placed.zip m.placed →
      SameReading l m (.error (.parse ⟨.ofString l.text, p.start, p.stop⟩ message))
        (.error (.parse ⟨.ofString m.text, q.start, q.stop⟩ message))
  | ending (message : String) :
      SameReading l m
        (.error (.parse ⟨.ofString l.text, Reader.endOf 0 l.placed, Reader.endOf 0 l.placed⟩ message))
        (.error (.parse ⟨.ofString m.text, Reader.endOf 0 m.placed, Reader.endOf 0 m.placed⟩ message))

section scan

variable {c : Char} {w body line rest : List Char} {t : Token}

theorem isBlank_of_isLineBreak (h : isLineBreak c = true) : isBlank c = true := by
  simp only [isLineBreak, Bool.or_eq_true, decide_eq_true_eq] at h
  rcases h with rfl | rfl <;> decide

theorem ofChars_blockComment (h : FirstEnd (body ++ ['*', '/']) body []) (offset : ℕ)
    (rest : List Char) : Scan.ofChars 0 offset ('/' :: '*' :: (body ++ ['*', '/'] ++ rest)) =
      Scan.ofChars 0 (offset + byteCount ('/' :: '*' :: (body ++ ['*', '/']))) rest := by
  have hclose : closeComment? (body ++ ['*', '/']) = some (body ++ ['*', '/'], []) :=
    closeComment?_eq_some_iff.mpr ⟨body, rfl, h⟩
  have hbody := (closeComment?_append _ rest).1 (mem_commentBodies_of_closeComment? hclose)
  have hf : Lexeme.first? ('/' :: '*' :: (body ++ ['*', '/'] ++ rest)) =
      some ⟨none, '/' :: '*' :: (body ++ ['*', '/']), rest⟩ := by
    rw [Lexeme.first?, hbody]
  rw [Scan.ofChars_zero hf]
  rfl

/-- The line breaks that follow the first one belong to the comment, but they are blanks as well. -/
theorem ofChars_lineComment (hl : OneLine line) (hc : isLineBreak c = true) (offset : ℕ)
    (rest : List Char) : Scan.ofChars 0 offset ('/' :: '/' :: (line ++ c :: rest)) =
      Scan.ofChars 0 (offset + byteCount ('/' :: '/' :: (line ++ [c]))) rest := by
  obtain ⟨breaks, after, hrest, hbreaks, hstops⟩ : ∃ breaks after, rest = breaks ++ after ∧
      (∀ d ∈ breaks, isLineBreak d = true) ∧ ∀ d ∈ after.head?, isLineBreak d = false := by
    refine ⟨_, _, List.takeWhile_append_dropWhile.symm, fun d hd => List.mem_takeWhile_imp hd, ?_⟩
    intro d hd
    obtain ⟨v, hv⟩ := List.head?_eq_some_iff.mp hd
    exact head_dropWhile hv
  have hend : LineEnd (line ++ c :: rest) line (c :: breaks) after :=
    ⟨by rw [hrest, List.cons_append], hl, List.forall_mem_cons.mpr ⟨hc, hbreaks⟩, hstops, nofun⟩
  have hf : Lexeme.first? ('/' :: '/' :: (line ++ c :: rest)) =
      some ⟨none, '/' :: '/' :: (line ++ c :: breaks), after⟩ := by
    rw [Lexeme.first?, hend.ofLineComment]
  have hblank : ∀ d ∈ breaks, isBlank d = true := fun d hd =>
    isBlank_of_isLineBreak (hbreaks d hd)
  rw [Scan.ofChars_zero hf, hrest, Scan.ofChars_blanks hblank]
  simp [Scan.withPiece, Nat.add_assoc]

theorem ofChars_filler (h : Filler w) (offset : ℕ) (rest : List Char) :
    Scan.ofChars 0 offset (w ++ rest) = Scan.ofChars 0 (offset + byteCount w) rest := by
  induction h generalizing offset with
  | nil => rfl
  | blank hc _ ih =>
    rw [List.cons_append, Scan.ofChars_blank hc, ih, Text.byteCount_cons, Nat.add_assoc]
  | @block body w hend _ ih =>
    have hcomment : '/' :: '*' :: (body ++ ['*', '/'] ++ w) ++ rest =
        '/' :: '*' :: (body ++ ['*', '/'] ++ (w ++ rest)) := by simp
    rw [hcomment, ofChars_blockComment hend, ih]
    simp [Nat.add_assoc]
  | @line line c w hl hc _ ih =>
    have hcomment : '/' :: '/' :: (line ++ c :: w) ++ rest =
        '/' :: '/' :: (line ++ c :: (w ++ rest)) := by simp
    rw [hcomment, ofChars_lineComment hl hc, ih]
    simp [Nat.add_assoc]

theorem first?_word (ht : t.Word) (hb : ∀ c ∈ rest.head?, isBlank c = true) :
    Lexeme.first? (t.text.toList ++ rest) = some ⟨some t, t.text.toList, rest⟩ := by
  have hends : EndsName rest := by
    cases rest with
    | nil => simp [EndsName]
    | cons c rest => exact endsName_of_isBlank (hb c rfl)
  cases t with
  | mark m =>
    by_cases hm : m = .negate
    · subst hm
      cases rest with
      | nil => rfl
      | cons c rest =>
        have hc := hb c rfl
        refine first?_negate ?_ ?_ rest <;> (rintro rfl; cases hc)
    · exact Lexeme.first?_mark hm rest
  | bits values =>
    have hf := first?_bits ht hends
    simpa [Token.text] using hf
  | name x =>
    have hf := first?_name ht hends
    simpa [Token.text] using hf

namespace Layout

variable {l m : Layout} {items : List (Token × List Char)}

theorem ofChars_items (h : Separated items) (offset : ℕ) :
    Scan.ofChars 0 offset (chars items) = ⟨place offset items, none⟩ := by
  induction h generalizing offset with
  | nil => rfl
  | @cons t gap items ht hgap hb hlast _ ih =>
    have hnext : ∀ c ∈ (gap ++ chars items).head?, isBlank c = true := by
      cases gap with
      | nil =>
        rw [hlast rfl]
        simp [chars]
      | cons c gap => exact hb
    rw [chars, Scan.ofChars_zero (first?_word ht hnext), ofChars_filler hgap, ih]
    rfl

theorem Clear.scan (h : l.Clear) : Scan.ofText l.text = ⟨l.placed, none⟩ := by
  rw [Scan.ofText, text, String.toList_ofList, ofChars_filler h.lead, ofChars_items h.items,
    Nat.zero_add, placed]

theorem map_token_place (offset : ℕ) :
    (place offset items).map Placed.token = items.map Prod.fst := by
  induction items generalizing offset with
  | nil => rfl
  | cons i items ih => rw [place, List.map_cons, ih, List.map_cons]

theorem standsIn_place (before : List Char) :
    ∀ p ∈ place (byteCount before) items, p.StandsIn (before ++ chars items) := by
  induction items generalizing before with
  | nil => exact List.forall_mem_nil _
  | cons i items ih =>
    obtain ⟨t, gap⟩ := i
    refine List.forall_mem_cons.mpr ⟨⟨before, gap ++ chars items, rfl, rfl, rfl⟩, ?_⟩
    have hrest := ih (before ++ (t.text.toList ++ gap))
    simpa [chars, Nat.add_assoc] using hrest

end Layout

end scan

section reading

variable {σ α : Type} {r : Reader σ α} {s : σ} {l m : Layout}

/-- Two outcomes of reading the same tokens at different places. -/
inductive SameOutcome (last last' : ℕ) (ps qs : List Placed) :
    Except Refusal α → Except Refusal α → Prop where
  | value (a : α) : SameOutcome last last' ps qs (.ok a) (.ok a)
  | token {p q : Placed} (expected : List Terminal) : (p, q) ∈ ps.zip qs → p.token = q.token →
      SameOutcome last last' ps qs (.error (.unexpectedToken p expected))
        (.error (.unexpectedToken q expected))
  | ending (expected : List Terminal) :
      SameOutcome last last' ps qs (.error (.unexpectedEnd (Reader.endOf last ps) expected))
        (.error (.unexpectedEnd (Reader.endOf last' qs) expected))

theorem SameOutcome.cons {p q : Placed} {ps qs : List Placed} {x y : Except Refusal α}
    (h : SameOutcome p.stop q.stop ps qs x y) (last last' : ℕ) :
    SameOutcome last last' (p :: ps) (q :: qs) x y := by
  cases h with
  | value a => exact .value a
  | token expected hpq ht => exact .token expected (List.mem_cons_of_mem _ hpq) ht
  | ending expected =>
    rw [← Reader.endOf_cons last, ← Reader.endOf_cons last']
    exact .ending expected

/-- What a reader does depends on the tokens and not on their places. -/
theorem Reader.runFrom_sameOutcome (s : σ) (last last' : ℕ) {ps qs : List Placed}
    (h : ps.map Placed.token = qs.map Placed.token) :
    SameOutcome last last' ps qs (r.runFrom s last none ps) (r.runFrom s last' none qs) := by
  induction ps generalizing s last last' qs with
  | nil =>
    obtain rfl := List.map_eq_nil_iff.mp h.symm
    simp only [runFrom]
    cases r.result s with
    | none => exact .ending _
    | some a => exact .value a
  | cons p ps ih =>
    cases qs with
    | nil => cases h
    | cons q qs =>
      obtain ⟨ht, hrest⟩ := List.cons.inj h
      simp only [runFrom, ← ht]
      cases r.step s p.token with
      | none => exact .token _ List.mem_cons_self ht
      | some s' => exact (ih s' p.stop q.stop hrest).cons last last'

theorem SameOutcome.sameReading {x y : Except Refusal α}
    (h : SameOutcome 0 0 l.placed m.placed x y) : SameReading l m
      (x.mapError (Refusal.fault (.ofString l.text)))
      (y.mapError (Refusal.fault (.ofString m.text))) := by
  cases h with
  | value a => exact .value a
  | @token p q expected hpq ht =>
    obtain ⟨t, start, stop⟩ := p
    obtain ⟨u, start', stop'⟩ := q
    obtain rfl : t = u := ht
    exact .token (Refusal.unexpectedToken ⟨t, start, stop⟩ expected).message hpq
  | ending expected => exact .ending _

theorem Reader.run_sameReading (hl : l.Clear) (hm : m.Clear) (h : l.tokens = m.tokens) :
    SameReading l m ((r.run l.text).mapError (Refusal.fault (.ofString l.text)))
      ((r.run m.text).mapError (Refusal.fault (.ofString m.text))) := by
  have htokens : l.placed.map Placed.token = m.placed.map Placed.token := by
    rw [Layout.placed, Layout.placed, Layout.map_token_place, Layout.map_token_place]
    exact h
  have hrun := (Reader.runFrom_sameOutcome (r := r) r.start 0 0 htokens).sameReading
  simpa only [Reader.run, hl.scan, hm.scan] using hrun

end reading

namespace Layout

/-- Tokens are found with their texts where they were put between blanks and comments, and what is
read from them, or the place among them where reading stops, is the same in every layout. -/
theorem parse_sameReading {l m : Layout} (hl : l.Clear) (hm : m.Clear) (h : l.tokens = m.tokens) :
    Scan.ofText l.text = ⟨l.placed, none⟩ ∧ l.placed.map Placed.token = l.tokens ∧
    (∀ p ∈ l.placed, p.StandsIn l.text.toList) ∧
    SameReading l m (Program.parse l.text) (Program.parse m.text) ∧
    SameReading l m (Expr.parse l.text) (Expr.parse m.text) := by
  refine ⟨hl.scan, map_token_place _, ?_, Reader.run_sameReading hl hm h,
    Reader.run_sameReading hl hm h⟩
  rw [text, String.toList_ofList]
  exact standsIn_place l.lead

def plain : Layout where
  lead := []
  items := [(.mark .hardware, [' ']), (.name "h'", [' ']), (.mark .negate, [' ']),
    (.bits [true, false], [])]

/-- The same tokens with comments that hold the beginnings of others, and blanks of three bytes. -/
def commented : Layout where
  lead := ['/', '*', 'é', '*', '/']
  items := [(.mark .hardware, ['\u2003']), (.name "h'", ['\n', '/', '/', '*', '\r', '\n']),
    (.mark .negate, [' ', '/', '*', '/', '*', '/']), (.bits [true, false], ['\n'])]

theorem clear_plain : plain.Clear := by
  have hblank : Filler [' '] := .blank rfl .nil
  have hname : "h'".toList ∈ names := Lexeme.mem_names_of_first? rfl
  refine ⟨.nil, .cons trivial hblank ?_ (by simp) (.cons hname hblank ?_ (by simp)
    (.cons trivial hblank ?_ (by simp) (.cons (by simp [Token.Word]) .nil ?_ (fun _ => rfl) .nil)))⟩ <;>
  simp [isBlank, Text.blankRanges]

theorem clear_commented : commented.Clear := by
  have hlead : FirstEnd (['é'] ++ ['*', '/']) ['é'] [] := firstEnd_of_closeComment? rfl
  have hslash : FirstEnd (['/'] ++ ['*', '/']) ['/'] [] := firstEnd_of_closeComment? rfl
  have hstar : OneLine ['*'] := by simp [OneLine, isLineBreak]
  have hline : Filler ['\n', '/', '/', '*', '\r', '\n'] :=
    .blank rfl (.line hstar rfl (.blank rfl .nil))
  have hname : "h'".toList ∈ names := Lexeme.mem_names_of_first? rfl
  refine ⟨.block hlead .nil, .cons trivial (.blank rfl .nil) ?_ (by simp)
    (.cons hname hline ?_ (by simp) (.cons trivial (.blank rfl (.block hslash .nil)) ?_ (by simp)
      (.cons (by simp [Token.Word]) (.blank rfl .nil) ?_ (by simp) .nil)))⟩ <;>
  simp [isBlank, Text.blankRanges]

theorem parse_sameReading_commented :
    plain.text = ".hardware h' / 10" ∧
    commented.text = "/*é*/.hardware\u2003h'\n//*\r\n/ /*/*/10\n" ∧
    plain.Clear ∧ commented.Clear ∧ plain.tokens = commented.tokens ∧
    Scan.ofText commented.text = ⟨[⟨.mark .hardware, 6, 15⟩, ⟨.name "h'", 18, 20⟩,
      ⟨.mark .negate, 26, 27⟩, ⟨.bits [true, false], 33, 35⟩], none⟩ ∧
    SameReading commented plain (Program.parse commented.text) (Program.parse plain.text) := by
  obtain ⟨hscan, _, _, hsame, _⟩ := parse_sameReading clear_commented clear_plain rfl
  exact ⟨by decide, by decide, clear_plain, clear_commented, rfl, hscan, hsame⟩

end Layout

end SyncCircuit
