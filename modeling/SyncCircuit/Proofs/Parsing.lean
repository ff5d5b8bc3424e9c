import SyncCircuit.Proofs.ProgramReading

/-!
Parsing a text is dividing it by maximal munch and reading the tokens. A text is parsed exactly if
its tokens are a sentence, and otherwise the fault names the first place at which it can be known
to be none.
-/

namespace SyncCircuit

open Grammar (Description Phrase)

section diagnosis

variable {σ α : Type} {D : List Token → α → Prop} {text : String} {span : Span} {message : String}

/-- The fault spans a token that no sentence has after the tokens before it. -/
def AtToken (D : List Token → α → Prop) (text : String) (span : Span) (message : String) : Prop :=
  ∃ before p expected, UnexpectedToken D text before p ∧ span.start = p.start ∧
    span.stop = p.stop ∧ message =
      "Parse error: Unexpected \"" ++ p.token.text ++ "\". " ++ Refusal.alternatives expected

/-- The fault is at the end of the last token of a text that is only the beginning of a sentence. -/
def AtEnd (D : List Token → α → Prop) (text : String) (span : Span) (message : String) : Prop :=
  ∃ ps expected, UnexpectedEnd D text ps ∧ span.start = Reader.endOf 0 ps ∧
    span.stop = Reader.endOf 0 ps ∧
    message = "Parse error: Unexpected end of input. " ++ Refusal.alternatives expected

/-- The fault is where, after the beginning of a sentence, no piece of the text begins. -/
def AtOffset (D : List Token → α → Prop) (text : String) (span : Span) (message : String) : Prop :=
  ∃ ps offset, InvalidToken D text ps offset ∧ span.start = offset ∧ span.stop = offset ∧
    message = "Parse error: Invalid token"

def ExactlyOne (a b c : Prop) : Prop := a ∧ ¬ b ∧ ¬ c ∨ ¬ a ∧ b ∧ ¬ c ∨ ¬ a ∧ ¬ b ∧ c

inductive Diagnosis (D : List Token → α → Prop) (text : String) : Fault → Prop where
  | mk {span : Span} {message : String} : span.source = .ofString text →
      span.start ≤ span.stop → span.stop ≤ text.utf8ByteSize →
      ExactlyOne (AtToken D text span message) (AtEnd D text span message)
        (AtOffset D text span message) →
      Diagnosis D text (.parse span message)

theorem exactlyOne_of_atToken (h : AtToken D text span message) :
    ExactlyOne (AtToken D text span message) (AtEnd D text span message)
      (AtOffset D text span message) := by
  refine .inl ⟨h, ?_, ?_⟩
  · rintro ⟨ps, _, hend, _⟩
    obtain ⟨before, p, _, ht, _⟩ := h
    exact ht.not_unexpectedEnd hend
  · rintro ⟨ps, offset, hoffset, _⟩
    obtain ⟨before, p, _, ht, _⟩ := h
    exact ht.not_invalidToken hoffset

theorem exactlyOne_of_atEnd (h : AtEnd D text span message) :
    ExactlyOne (AtToken D text span message) (AtEnd D text span message)
      (AtOffset D text span message) := by
  refine .inr (.inl ⟨?_, h, ?_⟩)
  · rintro ⟨before, p, _, ht, _⟩
    obtain ⟨ps, _, hend, _⟩ := h
    exact ht.not_unexpectedEnd hend
  · rintro ⟨qs, offset, hoffset, _⟩
    obtain ⟨ps, _, hend, _⟩ := h
    exact hend.not_invalidToken hoffset

theorem exactlyOne_of_atOffset (h : AtOffset D text span message) :
    ExactlyOne (AtToken D text span message) (AtEnd D text span message)
      (AtOffset D text span message) := by
  refine .inr (.inr ⟨?_, ?_, h⟩)
  · rintro ⟨before, p, _, ht, _⟩
    obtain ⟨ps, offset, hoffset, _⟩ := h
    exact ht.not_invalidToken hoffset
  · rintro ⟨qs, _, hend, _⟩
    obtain ⟨ps, offset, hoffset, _⟩ := h
    exact hend.not_invalidToken hoffset

theorem Diagnosis.of_unexpectedEnd {f : Fault} {ps : List Placed} (h : Diagnosis D text f)
    (hend : UnexpectedEnd D text ps) : ∃ span expected, f = .parse span
      ("Parse error: Unexpected end of input. " ++ Refusal.alternatives expected) := by
  obtain ⟨_, _, _, ⟨htoken, _⟩ | ⟨_, h, _⟩ | ⟨_, _, hoffset⟩⟩ := h
  · obtain ⟨before, p, _, ht, _⟩ := htoken
    exact absurd hend ht.not_unexpectedEnd
  · obtain ⟨qs, expected, _, _, _, rfl⟩ := h
    exact ⟨_, expected, rfl⟩
  · obtain ⟨qs, offset, ho, _⟩ := hoffset
    exact absurd ho hend.not_invalidToken

theorem UnexpectedToken.bounds {before : List Placed} {p : Placed}
    (h : UnexpectedToken D text before p) : p.start ≤ p.stop ∧ p.stop ≤ text.utf8ByteSize := by
  obtain ⟨after, invalid, hm⟩ := h.lexed
  have hp := hm.token_bounds p (List.mem_append_right before List.mem_cons_self)
  rwa [byteCount_toList, Nat.zero_add] at hp

theorem UnexpectedEnd.bound {ps : List Placed} (h : UnexpectedEnd D text ps) :
    Reader.endOf 0 ps ≤ text.utf8ByteSize := by
  unfold Reader.endOf
  cases hp : ps.getLast? with
  | none => exact Nat.zero_le _
  | some p =>
    have hb := (h.lexed.token_bounds p (List.mem_of_getLast? hp)).2
    rwa [byteCount_toList, Nat.zero_add] at hb

theorem InvalidToken.bound {ps : List Placed} {offset : ℕ} (h : InvalidToken D text ps offset) :
    offset ≤ text.utf8ByteSize := by
  obtain ⟨before, after, htext, rfl, _⟩ := h.nothing
  rw [← byteCount_toList, htext, Text.byteCount_append]
  exact Nat.le_add_right _ _

namespace Reader.Recognizes

variable {r : Reader σ α} {s : σ} {e : Refusal}

theorem unexpectedToken (h : r.Recognizes D) {before after : List Placed} {p : Placed}
    (hps : (Scan.ofText text).tokens = before ++ p :: after)
    (hs : r.reach r.start (before.map Placed.token) = some s) (hp : r.step s p.token = none) :
    UnexpectedToken D text before p where
  lexed := ⟨after, (Scan.ofText text).invalid, Scan.ofText_eq_iff.mp (by rw [← hps])⟩
  viable := h.viable_iff.mpr ⟨s, hs⟩
  not_viable hv := by
    obtain ⟨s', hs'⟩ := h.viable_iff.mp hv
    rw [List.map_append, reach_append_of_reach hs, List.map_singleton, reach_singleton, hp] at hs'
    cases hs'

theorem unexpectedEnd (h : r.Recognizes D) (hi : (Scan.ofText text).invalid = none)
    (hs : r.reach r.start ((Scan.ofText text).tokens.map Placed.token) = some s)
    (hr : r.result s = none) : UnexpectedEnd D text (Scan.ofText text).tokens where
  lexed := Scan.ofText_eq_iff.mp (by rw [← hi])
  viable := h.viable_iff.mpr ⟨s, hs⟩
  incomplete := by
    rintro ⟨a, hd⟩
    obtain ⟨s', hs', ha⟩ := (h.value _ a).mp hd
    obtain rfl := Option.some.inj (hs.symm.trans hs')
    rw [hr] at ha
    cases ha

theorem invalidToken (h : r.Recognizes D) {offset : ℕ}
    (hi : (Scan.ofText text).invalid = some offset)
    (hs : r.reach r.start ((Scan.ofText text).tokens.map Placed.token) = some s) :
    InvalidToken D text (Scan.ofText text).tokens offset where
  lexed := Scan.ofText_eq_iff.mp (by rw [← hi])
  viable := h.viable_iff.mpr ⟨s, hs⟩
  nothing := by
    have hm : MaximalMunch 0 text.toList (Scan.ofText text) := Scan.ofText_eq_iff.mp rfl
    obtain ⟨before, after, htext, hoffset, hne, hno⟩ :=
      hm.stuck_at offset (Option.mem_def.mpr hi)
    rw [Nat.zero_add] at hoffset
    exact ⟨before, after, htext, hoffset.symm, hne, hno⟩

theorem diagnosis (h : r.Recognizes D) (he : r.run text = .error e) :
    Diagnosis D text (e.fault (.ofString text)) := by
  cases refuses_of_runFrom he with
  | token hps hs hp =>
    have ht := h.unexpectedToken hps hs hp
    exact .mk rfl ht.bounds.1 ht.bounds.2
      (exactlyOne_of_atToken ⟨_, _, _, ht, rfl, rfl, rfl⟩)
  | ending hi hs hr =>
    have hend := h.unexpectedEnd hi hs hr
    exact .mk rfl le_rfl hend.bound (exactlyOne_of_atEnd ⟨_, _, hend, rfl, rfl, rfl⟩)
  | invalid hi hs =>
    have hoffset := h.invalidToken hi hs
    exact .mk rfl le_rfl hoffset.bound (exactlyOne_of_atOffset ⟨_, _, hoffset, rfl, rfl, rfl⟩)

end Reader.Recognizes

end diagnosis

theorem mapError_eq_ok_iff {α ε ε' : Type} {x : Except ε α} {f : ε → ε'} {a : α} :
    x.mapError f = .ok a ↔ x = .ok a := by
  cases x <;> simp [Except.mapError]

theorem mapError_eq_error_iff {α ε ε' : Type} {x : Except ε α} {f : ε → ε'} {e : ε'} :
    x.mapError f = .error e ↔ ∃ d, x = .error d ∧ f d = e := by
  cases x <;> simp [Except.mapError]

namespace Expr

theorem parse_eq_ok_iff {text : String} {e : Expr} : parse text = .ok e ↔
    ∃ ps, MaximalMunch 0 text.toList ⟨ps, none⟩ ∧ Phrase .sum (ps.map Placed.token) e := by
  rw [parse, mapError_eq_ok_iff, reader_recognizes.run_eq_ok]

theorem diagnosis_of_parse {text : String} {f : Fault} (h : parse text = .error f) :
    Diagnosis (Phrase .sum) text f := by
  obtain ⟨e, he, rfl⟩ := mapError_eq_error_iff.mp h
  exact reader_recognizes.diagnosis he

end Expr

namespace Program

theorem parse_eq_ok_iff {text : String} {p : Program} : parse text = .ok p ↔
    ∃ ps, MaximalMunch 0 text.toList ⟨ps, none⟩ ∧ Description (ps.map Placed.token) p := by
  rw [parse, parseFrom, mapError_eq_ok_iff, reader_recognizes.run_eq_ok]

theorem diagnosis_of_parse {text : String} {f : Fault} (h : parse text = .error f) :
    Diagnosis Description text f := by
  obtain ⟨e, he, rfl⟩ := mapError_eq_error_iff.mp h
  exact reader_recognizes.diagnosis he

end Program

/-- Descriptions and expressions are parsed exactly as the grammar derives them from the tokens of
the text, and the grammar gives no sequence of tokens two meanings. -/
theorem parse_exact (text : String) :
    (∀ p, Program.parse text = .ok p ↔
      ∃ ps, MaximalMunch 0 text.toList ⟨ps, none⟩ ∧ Description (ps.map Placed.token) p) ∧
    (∀ e, Expr.parse text = .ok e ↔
      ∃ ps, MaximalMunch 0 text.toList ⟨ps, none⟩ ∧ Phrase .sum (ps.map Placed.token) e) ∧
    ∀ ts, {p | Description ts p}.Subsingleton ∧ {e | Phrase .sum ts e}.Subsingleton :=
  ⟨fun _ => Program.parse_eq_ok_iff, fun _ => Expr.parse_eq_ok_iff, fun _ =>
    ⟨fun _ hp _ hq => Program.reader_recognizes.unique hp hq,
      fun _ ha _ hb => Expr.reader_recognizes.unique ha hb⟩⟩

example : Expr.parse "f(a+/b*c',)" =
    .ok (.call "f" [.or (.signal "a") (.and (.not (.signal "b")) (.signal "c'"))]) := by rfl

/-- A text that is not parsed is refused where it first differs from every sentence, and no bit
string that is read is refused as a trace. -/
theorem parse_diagnoses (text : String) :
    (∀ f, Program.parse text = .error f → Diagnosis Description text f) ∧
    (∀ f, Expr.parse text = .error f → Diagnosis (Phrase .sum) text f) ∧
    ∀ x values, Trace.ofBits x (Token.bits values).text = .ok (.ofValues x values) :=
  ⟨fun _ => Program.diagnosis_of_parse, fun _ => Expr.diagnosis_of_parse, Trace.ofBits_text⟩

theorem parse_diagnoses_unopened :
    ∃ m n, Program.parse "a)" = .error (.parse ⟨.ofString "a)", 0, 1⟩ m) ∧
      Diagnosis Description "a)" (.parse ⟨.ofString "a)", 0, 1⟩ m) ∧
      Expr.parse "a)" = .error (.parse ⟨.ofString "a)", 1, 2⟩ n) ∧
      Diagnosis (Phrase .sum) "a)" (.parse ⟨.ofString "a)", 1, 2⟩ n) := by
  obtain ⟨m, hm⟩ : ∃ m, Program.parse "a)" = .error (.parse ⟨.ofString "a)", 0, 1⟩ m) := ⟨_, rfl⟩
  obtain ⟨n, hn⟩ : ∃ n, Expr.parse "a)" = .error (.parse ⟨.ofString "a)", 1, 2⟩ n) := ⟨_, rfl⟩
  obtain ⟨hp, he, _⟩ := parse_diagnoses "a)"
  exact ⟨m, n, hm, hp _ hm, hn, he _ hn⟩

end SyncCircuit
