import SyncCircuit.Proofs.Lexing
import SyncCircuit.Reader

/-!
Readers against grammars. A reader recognizes a grammar if it ends with the value of each sentence
and can always be brought to such an end. It then refuses a text at the first token that no sentence
has in its place, and for no other reason.
-/

namespace SyncCircuit

variable {σ α : Type}

def Viable (D : List Token → α → Prop) (ts : List Token) : Prop := ∃ us a, D (ts ++ us) a

namespace Reader

variable {r : Reader σ α} {D : List Token → α → Prop} {s s' : σ} {a : α} {t : Token}
variable {ts us : List Token}

/-- The state that a sequence of tokens leads to, if each can come where it stands. -/
def reach (r : Reader σ α) (s : σ) : List Token → Option σ
  | [] => some s
  | t :: ts => (r.step s t).bind fun s => r.reach s ts

@[simp] theorem reach_nil : r.reach s [] = some s := rfl

theorem reach_cons_of_step (h : r.step s t = some s') (ts : List Token) :
    r.reach s (t :: ts) = r.reach s' ts := by
  simp [reach, h]

theorem reach_append : r.reach s (ts ++ us) = (r.reach s ts).bind fun s => r.reach s us := by
  induction ts generalizing s with
  | nil => rfl
  | cons t ts ih =>
    simp only [List.cons_append, reach, ih]
    cases r.step s t <;> rfl

theorem reach_append_of_reach (h : r.reach s ts = some s') (us : List Token) :
    r.reach s (ts ++ us) = r.reach s' us := by
  rw [reach_append, h]
  rfl

theorem reach_singleton : r.reach s [t] = r.step s t := by
  cases h : r.step s t <;> simp [reach, h]

theorem exists_reach_of_append (h : r.reach s (ts ++ us) = some s') :
    ∃ s₁, r.reach s ts = some s₁ ∧ r.reach s₁ us = some s' := by
  rw [reach_append] at h
  exact Option.bind_eq_some_iff.mp h

/-- What each token preserves, with the tokens read so far, holds after all of them. -/
theorem reach_invariant {P : List Token → σ → Prop} (hs : P [] s)
    (step : ∀ ts s t s', P ts s → r.step s t = some s' → P (ts ++ [t]) s')
    (h : r.reach s ts = some s') : P ts s' := by
  suffices aux : ∀ us ts s, P us s → r.reach s ts = some s' → P (us ++ ts) s' from
    aux [] ts s hs h
  intro us ts
  induction ts generalizing us with
  | nil =>
    intro s hs h
    obtain rfl := Option.some.inj h
    rwa [List.append_nil]
  | cons t ts ih =>
    intro s hs h
    obtain ⟨s₁, h₁, h₂⟩ := Option.bind_eq_some_iff.mp h
    have hnext := ih (us ++ [t]) s₁ (step us s t s₁ hs h₁) h₂
    rwa [List.append_assoc] at hnext

/-- The reader ends with a value exactly after a sentence, and no state is a dead end. -/
structure Recognizes (r : Reader σ α) (D : List Token → α → Prop) : Prop where
  value : ∀ ts a, D ts a ↔ ∃ s, r.reach r.start ts = some s ∧ r.result s = some a
  completable : ∀ ts s, r.reach r.start ts = some s →
    ∃ us s' a, r.reach s us = some s' ∧ r.result s' = some a

theorem Recognizes.unique (h : r.Recognizes D) {b : α} (ha : D ts a) (hb : D ts b) : a = b := by
  obtain ⟨s, hs, ha⟩ := (h.value ts a).mp ha
  obtain ⟨s', hs', hb⟩ := (h.value ts b).mp hb
  obtain rfl := Option.some.inj (hs.symm.trans hs')
  exact Option.some.inj (ha.symm.trans hb)

theorem Recognizes.viable_iff (h : r.Recognizes D) :
    Viable D ts ↔ ∃ s, r.reach r.start ts = some s := by
  constructor
  · rintro ⟨us, a, hd⟩
    obtain ⟨s, hs, _⟩ := (h.value _ a).mp hd
    obtain ⟨s₁, h₁, _⟩ := exists_reach_of_append hs
    exact ⟨s₁, h₁⟩
  · rintro ⟨s, hs⟩
    obtain ⟨us, s', a, hus, ha⟩ := h.completable ts s hs
    exact ⟨us, a, (h.value _ a).mpr ⟨s', (reach_append_of_reach hs us).trans hus, ha⟩⟩

section runFrom

variable {last : ℕ} {invalid : Option ℕ} {ps : List Placed}

theorem runFrom_eq_ok : r.runFrom s last invalid ps = .ok a ↔ invalid = none ∧
    ∃ s', r.reach s (ps.map Placed.token) = some s' ∧ r.result s' = some a := by
  induction ps generalizing s last with
  | nil =>
    cases invalid with
    | some b => simp [runFrom]
    | none => cases h : r.result s <;> simp [runFrom, h]
  | cons p ps ih =>
    cases h : r.step s p.token with
    | none => simp [runFrom, reach, h]
    | some s₁ => simp [runFrom, reach, h, ih]

def endOf (last : ℕ) (ps : List Placed) : ℕ := (ps.getLast?.map Placed.stop).getD last

theorem endOf_cons (last : ℕ) (p : Placed) (ps : List Placed) :
    endOf last (p :: ps) = endOf p.stop ps := by
  cases h : ps.getLast? <;> simp [endOf, List.getLast?_cons, h]

/-- How a reader can come to refuse tokens from a state on. -/
inductive Refuses (r : Reader σ α) (s : σ) (last : ℕ) (invalid : Option ℕ) (ps : List Placed) :
    Refusal → Prop where
  | token {before : List Placed} {p : Placed} {after : List Placed} {s' : σ} :
      ps = before ++ p :: after → r.reach s (before.map Placed.token) = some s' →
      r.step s' p.token = none →
      Refuses r s last invalid ps (.unexpectedToken p (r.expected s' (some p.token.terminal)))
  | ending {s' : σ} : invalid = none → r.reach s (ps.map Placed.token) = some s' →
      r.result s' = none →
      Refuses r s last invalid ps (.unexpectedEnd (endOf last ps) (r.expected s' none))
  | invalid {offset : ℕ} {s' : σ} : invalid = some offset →
      r.reach s (ps.map Placed.token) = some s' →
      Refuses r s last invalid ps (.invalidToken offset)

theorem Refuses.cons {p : Placed} {e : Refusal} (hp : r.step s p.token = some s')
    (h : Refuses r s' p.stop invalid ps e) : Refuses r s last invalid (p :: ps) e := by
  cases h with
  | @token before q after s₁ hps hreach hstep =>
    have hps : p :: ps = (p :: before) ++ q :: after := by rw [hps, List.cons_append]
    exact .token hps ((reach_cons_of_step hp _).trans hreach) hstep
  | ending hi hreach hresult =>
    rw [← endOf_cons last]
    exact .ending hi ((reach_cons_of_step hp _).trans hreach) hresult
  | invalid hi hreach => exact .invalid hi ((reach_cons_of_step hp _).trans hreach)

theorem refuses_of_runFrom {e : Refusal} (h : r.runFrom s last invalid ps = .error e) :
    Refuses r s last invalid ps e := by
  induction ps generalizing s last with
  | nil =>
    cases invalid with
    | some b =>
      cases h
      exact .invalid rfl rfl
    | none =>
      simp only [runFrom] at h
      split at h
      · cases h
      · next hresult =>
        cases h
        exact .ending rfl rfl hresult
  | cons p ps ih =>
    simp only [runFrom] at h
    split at h
    · next s₁ hp => exact (ih h).cons hp
    · next hp =>
      cases h
      exact .token (List.nil_append (p :: ps)).symm rfl hp

end runFrom

theorem Recognizes.run_eq_ok (h : r.Recognizes D) {text : String} : r.run text = .ok a ↔
    ∃ ps, MaximalMunch 0 text.toList ⟨ps, none⟩ ∧ D (ps.map Placed.token) a := by
  unfold run
  dsimp only
  rw [runFrom_eq_ok, ← h.value]
  constructor
  · rintro ⟨hi, hd⟩
    exact ⟨_, Scan.ofText_eq_iff.mp (by rw [← hi]), hd⟩
  · rintro ⟨ps, hm, hd⟩
    rw [Scan.ofText_eq_iff.mpr hm]
    exact ⟨rfl, hd⟩

end Reader

structure UnexpectedToken (D : List Token → α → Prop) (text : String) (before : List Placed)
    (p : Placed) : Prop where
  lexed : ∃ after invalid, MaximalMunch 0 text.toList ⟨before ++ p :: after, invalid⟩
  viable : Viable D (before.map Placed.token)
  not_viable : ¬ Viable D ((before ++ [p]).map Placed.token)

structure UnexpectedEnd (D : List Token → α → Prop) (text : String) (ps : List Placed) : Prop where
  lexed : MaximalMunch 0 text.toList ⟨ps, none⟩
  viable : Viable D (ps.map Placed.token)
  incomplete : ¬ ∃ a, D (ps.map Placed.token) a

/-- After tokens with which a sentence begins, the text goes on with what is neither a token nor
skipped. -/
structure InvalidToken (D : List Token → α → Prop) (text : String) (ps : List Placed)
    (offset : ℕ) : Prop where
  lexed : MaximalMunch 0 text.toList ⟨ps, some offset⟩
  viable : Viable D (ps.map Placed.token)
  nothing : ∃ before after, text.toList = before ++ after ∧ Text.byteCount before = offset ∧
    after ≠ [] ∧ ∀ k w, Piece k w → w <+: after → w = []

section exclusion

variable {D : List Token → α → Prop} {text : String} {before ps qs : List Placed} {p : Placed}
variable {offset : ℕ}

theorem Viable.of_append {ts us : List Token} (h : Viable D (ts ++ us)) : Viable D ts := by
  obtain ⟨vs, a, hd⟩ := h
  exact ⟨us ++ vs, a, by rwa [← List.append_assoc]⟩

theorem MaximalMunch.scan_eq {s s' : Scan} {cs : List Char} (h : MaximalMunch offset cs s)
    (h' : MaximalMunch offset cs s') : s = s' :=
  (Scan.ofChars_of_maximalMunch h).symm.trans (Scan.ofChars_of_maximalMunch h')

theorem UnexpectedToken.not_viable_tokens (h : UnexpectedToken D text before p)
    {invalid : Option ℕ} (hm : MaximalMunch 0 text.toList ⟨ps, invalid⟩) :
    ¬ Viable D (ps.map Placed.token) := by
  obtain ⟨after, i, ha⟩ := h.lexed
  obtain ⟨rfl, -⟩ := Scan.mk.inj (ha.scan_eq hm)
  intro hv
  have hall : Viable D ((before ++ [p]).map Placed.token ++ after.map Placed.token) := by
    rwa [← List.map_append, List.append_assoc]
  exact h.not_viable hall.of_append

theorem UnexpectedToken.not_unexpectedEnd (h : UnexpectedToken D text before p) :
    ¬ UnexpectedEnd D text ps :=
  fun k => h.not_viable_tokens k.lexed k.viable

theorem UnexpectedToken.not_invalidToken (h : UnexpectedToken D text before p) :
    ¬ InvalidToken D text ps offset :=
  fun k => h.not_viable_tokens k.lexed k.viable

theorem UnexpectedEnd.not_invalidToken (h : UnexpectedEnd D text ps) :
    ¬ InvalidToken D text qs offset := by
  intro k
  cases h.lexed.scan_eq k.lexed

end exclusion
end SyncCircuit
