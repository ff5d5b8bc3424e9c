import SyncCircuit.Proofs.Parsing
import SyncCircuit.Proofs.Pieces

/-!
The kinds of tokens that a refusal lists. Each of them could have come: with a token of the kind in
the place of the one that was refused, or at the end, the tokens still begin a sentence. The list is
taken from a state in which the refused token has closed what it could, so there may be more.
-/

namespace SyncCircuit

open Grammar (Description Phrase)

variable {σ α : Type} {D : List Token → α → Prop} {ts : List Token} {next : Option Terminal}

/-- Some kinds of tokens, any token of which sentences have after the given ones. -/
structure Continues (D : List Token → α → Prop) (ts : List Token) (expected : List Terminal) :
    Prop where
  nonempty : expected ≠ []
  nodup : expected.Nodup
  viable : ∀ k ∈ expected, ∀ t : Token, t.terminal = k → Viable D (ts ++ [t])

namespace Reader

/-- Whether a token can come depends on its kind, something always can, and what can come after
ways on have been ruled out could come before. -/
structure Steady (r : Reader σ α) : Prop where
  terminal : ∀ s t u, t.terminal = u.terminal → (r.step s t).isSome → (r.step s u).isSome
  settle : ∀ s next t, (r.step (r.settle s next) t).isSome → (r.step s t).isSome
  proceeds : ∀ s next, ∃ t, (r.step (r.settle s next) t).isSome

variable {r : Reader σ α} {s : σ}

theorem mem_expected {k : Terminal} :
    k ∈ r.expected s next ↔ (r.step (r.settle s next) k.sample).isSome := by
  simp [expected, Terminal.mem_all]

theorem Steady.step_of_mem (h : r.Steady) {t : Token} (ht : t.terminal ∈ r.expected s next) :
    (r.step s t).isSome :=
  h.settle s next t (h.terminal _ _ _ (Terminal.terminal_sample t.terminal) (mem_expected.mp ht))

theorem Steady.notMem_expected (h : r.Steady) {t : Token} (ht : r.step s t = none) :
    t.terminal ∉ r.expected s next := by
  intro hm
  have hs := h.step_of_mem hm
  rw [ht] at hs
  cases hs

theorem Steady.continues (h : r.Steady) (hr : r.Recognizes D)
    (hs : r.reach r.start ts = some s) : Continues D ts (r.expected s next) where
  nonempty := by
    obtain ⟨t, ht⟩ := h.proceeds s next
    have hsample := h.terminal _ _ _ (Terminal.terminal_sample t.terminal).symm ht
    exact List.ne_nil_of_mem (mem_expected.mpr hsample)
  nodup := Terminal.nodup_all.filter _
  viable := by
    rintro _ hk t rfl
    obtain ⟨s', hs'⟩ := Option.isSome_iff_exists.mp (h.step_of_mem hk)
    exact hr.viable_iff.mpr ⟨s', (reach_append_of_reach hs [t]).trans (reach_singleton.trans hs')⟩

end Reader

namespace Expr

namespace Reading

variable {s : Reading}

theorem step?_terminal (s : Reading) (t u : Token) (h : t.terminal = u.terminal)
    (ht : (s.step? t).isSome) : (s.step? u).isSome := by
  cases t with
  | mark m =>
    cases u with
    | mark n =>
      obtain rfl := Terminal.mark.inj h
      exact ht
    | bits values => cases h
    | name x => cases h
  | bits values => cases ht
  | name x =>
    cases u with
    | mark n => cases h
    | bits values => cases h
    | name y =>
      by_cases hb : s.beginsOperand = true
      · rw [step?_name hb]
        rfl
      · simp [step?, hb] at ht

theorem step?_of_settled (s : Reading) (t : Token) (h : (s.settled.step? t).isSome) :
    (s.step? t).isSome := by
  cases ha : s.sum? with
  | none =>
    rw [settled, ha] at h
    exact h
  | some a =>
    simp only [settled, ha] at h
    cases t with
    | name x => cases h
    | bits values => cases h
    | mark m =>
      cases m with
      | plus => simp [step?_plus ha]
      | comma =>
        obtain ⟨opened, pending, cursor⟩ := s
        cases opened with
        | nil => cases h
        | cons o outer =>
          cases o with
          | group before => cases h
          | call before f as => simp [step?_comma rfl ha]
      | closeParen =>
        obtain ⟨opened, pending, cursor⟩ := s
        cases opened with
        | nil => cases h
        | cons o outer =>
          cases o with
          | group before => simp [close?_group rfl ha]
          | call before f as => simp [close?_call rfl ha]
      | _ => cases h

theorem exists_sum?_or_beginsOperand (s : Reading) :
    (∃ a, s.sum? = some a) ∨ s.beginsOperand = true := by
  obtain ⟨opened, pending, cursor⟩ := s
  cases cursor with
  | operand => exact .inr rfl
  | argument => exact .inr rfl
  | name x => exact .inl ⟨_, rfl⟩
  | factor e => exact .inl ⟨_, rfl⟩
  | sum e => exact .inl ⟨_, rfl⟩

theorem proceeds (s : Reading) : ∃ t, (s.step? t).isSome := by
  rcases s.exists_sum?_or_beginsOperand with ⟨a, ha⟩ | hb
  · exact ⟨.mark .plus, by simp [step?_plus ha]⟩
  · exact ⟨.name "_", by simp [step?_name hb]⟩

theorem result_settled (s : Reading) : s.settled.result = s.result := by
  obtain ⟨opened, pending, cursor⟩ := s
  cases cursor <;> rfl

end Reading

theorem reader_steady : reader.Steady where
  terminal := Reading.step?_terminal
  settle s next t h := by
    simp only [reader] at h
    split at h
    · exact s.step?_of_settled t h
    · exact h
  proceeds s next := by
    simp only [reader]
    split
    · exact s.settled.proceeds
    · exact s.proceeds

end Expr

namespace Program

namespace Reading

variable {p : Program} {f x : Name} {xs : List Name} {r : Expr.Reading} {t : Token}

theorem step?_body : (step? ⟨p, .body f xs r⟩ t).isSome ↔ (r.step? t).isSome ∨
    r.result.isSome ∧ t.terminal ∈ [Terminal.mark .define, .mark .update] := by
  cases hr : r.step? t with
  | some r' => simp [step?, hr]
  | none =>
    simp only [step?, hr]
    cases he : r.result with
    | none => simp
    | some e =>
      cases t with
      | mark m => cases m <;> simp [afterBody?, section?, Token.terminal]
      | bits values => simp [afterBody?, Token.terminal]
      | name y => simp [afterBody?, Token.terminal]

theorem step?_value : (step? ⟨p, .value x r⟩ t).isSome ↔ (r.step? t).isSome ∨
    r.result.isSome ∧ t.terminal ∈ [Terminal.name, .mark .simulate] := by
  cases hr : r.step? t with
  | some r' => simp [step?, hr]
  | none =>
    simp only [step?, hr]
    cases he : r.result with
    | none => simp
    | some e =>
      cases t with
      | mark m => cases m <;> simp [afterValue?, Token.terminal]
      | bits values => simp [afterValue?, Token.terminal]
      | name y => simp [afterValue?, Token.terminal]

theorem step?_terminal (s : Reading) (t u : Token) (h : t.terminal = u.terminal)
    (ht : (s.step? t).isSome) : (s.step? u).isSome := by
  obtain ⟨p, place⟩ := s
  cases place with
  | body f xs r =>
    rw [step?_body, ← h]
    exact (step?_body.mp ht).imp_left (r.step?_terminal t u h)
  | value x r =>
    rw [step?_value, ← h]
    exact (step?_value.mp ht).imp_left (r.step?_terminal t u h)
  | _ =>
    cases t with
    | mark m =>
      cases u with
      | mark n =>
        obtain rfl := Terminal.mark.inj h
        exact ht
      | bits values => cases h
      | name x => cases h
    | bits values =>
      cases u with
      | mark n => cases h
      | bits values => exact ht
      | name x => cases h
    | name x =>
      cases u with
      | mark n => cases h
      | bits values => cases h
      | name y => exact ht

theorem step?_of_settled (s : Reading) (t : Token) (h : (s.settled.step? t).isSome) :
    (s.step? t).isSome := by
  obtain ⟨p, place⟩ := s
  cases place with
  | body f xs r =>
    have hs := step?_body.mp h
    rw [Expr.Reading.result_settled] at hs
    exact step?_body.mpr (hs.imp_left (r.step?_of_settled t))
  | value x r =>
    have hs := step?_value.mp h
    rw [Expr.Reading.result_settled] at hs
    exact step?_value.mpr (hs.imp_left (r.step?_of_settled t))
  | _ => exact h

theorem proceeds (s : Reading) : ∃ t, (s.step? t).isSome := by
  obtain ⟨p, place⟩ := s
  cases place with
  | hardware => exact ⟨.mark .hardware, rfl⟩
  | title => exact ⟨.name "_", rfl⟩
  | inputsWord => exact ⟨.mark .inputs, rfl⟩
  | inputs => exact ⟨.name "_", rfl⟩
  | outputs => exact ⟨.name "_", rfl⟩
  | latches => exact ⟨.name "_", rfl⟩
  | defined => exact ⟨.name "_", rfl⟩
  | opening f => exact ⟨.mark .openParen, rfl⟩
  | parameters f xs => exact ⟨.name "_", rfl⟩
  | parameter f xs => exact ⟨.mark .comma, rfl⟩
  | definedAs f xs => exact ⟨.mark .equals, rfl⟩
  | body f xs r =>
    obtain ⟨t, ht⟩ := r.proceeds
    exact ⟨t, step?_body.mpr (.inl ht)⟩
  | updates => exact ⟨.name "_", rfl⟩
  | updatedTo x => exact ⟨.mark .equals, rfl⟩
  | value x r =>
    obtain ⟨t, ht⟩ := r.proceeds
    exact ⟨t, step?_value.mpr (.inl ht)⟩
  | stimuli => exact ⟨.name "_", rfl⟩
  | driven x => exact ⟨.mark .equals, rfl⟩
  | stimulus x => exact ⟨.bits [false], rfl⟩

end Reading

theorem reader_steady : reader.Steady where
  terminal := Reading.step?_terminal
  settle s next t h := by
    simp only [reader] at h
    split at h
    · exact s.step?_of_settled t h
    · exact h
  proceeds s next := Reading.proceeds _

end Program

section messages

open Text (joined pieces)

theorem description_word (k : Terminal) :
    k.description.toList ≠ [] ∧ ' ' ∉ k.description.toList := by
  have hall : Terminal.all.all fun k =>
      k.description.toList ≠ [] && !k.description.toList.contains ' ' := by decide +kernel
  simpa using List.all_eq_true.mp hall k (Terminal.mem_all k)

theorem description_injective : Function.Injective Terminal.description := by
  have hall : (Terminal.all.map Terminal.description).Nodup := by decide +kernel
  exact fun j k h => List.inj_on_of_nodup_map hall (Terminal.mem_all j) (Terminal.mem_all k) h

theorem alternatives_injective : Function.Injective Refusal.alternatives := by
  intro js ks h
  have hjoined := (String.append_right_inj _).mp h
  have hwords (expected : List Terminal) :
      ∀ s ∈ expected.map Terminal.description, s.toList ≠ [] ∧ ' ' ∉ s.toList :=
    List.forall_mem_map.mpr fun k _ => description_word k
  have hlists : (js.map Terminal.description).map String.toList =
      (ks.map Terminal.description).map String.toList := by
    rw [← filter_pieces_joined (hwords js), hjoined, filter_pieces_joined (hwords ks)]
  exact List.map_injective_iff.mpr description_injective
    (List.map_injective_iff.mpr (fun _ _ => String.toList_injective) hlists)

inductive Offers (D : List Token → α → Prop) (text : String) : Fault → Prop where
  | token {before : List Placed} {p : Placed} {expected : List Terminal} :
      UnexpectedToken D text before p → Continues D (before.map Placed.token) expected →
      p.token.terminal ∉ expected →
      Offers D text (.parse ⟨.ofString text, p.start, p.stop⟩
        ("Parse error: Unexpected \"" ++ p.token.text ++ "\". " ++ Refusal.alternatives expected))
  | ending {ps : List Placed} {expected : List Terminal} :
      UnexpectedEnd D text ps → Continues D (ps.map Placed.token) expected →
      Offers D text (.parse ⟨.ofString text, Reader.endOf 0 ps, Reader.endOf 0 ps⟩
        ("Parse error: Unexpected end of input. " ++ Refusal.alternatives expected))
  | invalid (offset : ℕ) :
      Offers D text (.parse ⟨.ofString text, offset, offset⟩ "Parse error: Invalid token")

theorem Reader.Steady.offers {r : Reader σ α} (h : r.Steady) (hr : r.Recognizes D) {text : String}
    {e : Refusal} (he : r.run text = .error e) : Offers D text (e.fault (.ofString text)) := by
  cases refuses_of_runFrom he with
  | token hps hs hp =>
    exact .token (hr.unexpectedToken hps hs hp) (h.continues hr hs) (h.notMem_expected hp)
  | ending hi hs hresult => exact .ending (hr.unexpectedEnd hi hs hresult) (h.continues hr hs)
  | invalid hi hs => exact .invalid _

end messages

/-- Each kind of token that a refusal lists could have come: some sentence has the tokens that were
read and then any token of the kind. The list has something in it, nothing twice, never the kind of
the token that was refused, and can be read off the message. -/
theorem parse_offers (text : String) :
    (∀ f, Program.parse text = .error f → Offers Description text f) ∧
    (∀ f, Expr.parse text = .error f → Offers (Phrase .sum) text f) ∧
    Function.Injective Refusal.alternatives := by
  refine ⟨fun f h => ?_, fun f h => ?_, alternatives_injective⟩
  · obtain ⟨e, he, rfl⟩ := mapError_eq_error_iff.mp h
    exact Program.reader_steady.offers Program.reader_recognizes he
  · obtain ⟨e, he, rfl⟩ := mapError_eq_error_iff.mp h
    exact Expr.reader_steady.offers Expr.reader_recognizes he

theorem parse_offers_unopened :
    Program.parse "a)" = .error (.parse ⟨.ofString "a)", 0, 1⟩
        "Parse error: Unexpected \"a\". Expected one of \".hardware\"") ∧
      Offers Description "a)" (.parse ⟨.ofString "a)", 0, 1⟩
        "Parse error: Unexpected \"a\". Expected one of \".hardware\"") ∧
      Expr.parse "a)" = .error (.parse ⟨.ofString "a)", 1, 2⟩
        "Parse error: Unexpected \")\". Expected one of \"+\"") ∧
      Offers (Phrase .sum) "a)" (.parse ⟨.ofString "a)", 1, 2⟩
        "Parse error: Unexpected \")\". Expected one of \"+\"") := by
  obtain ⟨hdescription, hexpr, _⟩ := parse_offers "a)"
  exact ⟨rfl, hdescription _ rfl, rfl, hexpr _ rfl⟩

end SyncCircuit
