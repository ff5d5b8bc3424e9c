import SyncCircuit.Proofs.Nesting

/-!
Evaluation that leaves nothing out. If both operands of every product and sum are evaluated, in the
bodies of functions as well, the result can only get worse: a value is the same, and where there is
none without it, there is none with it.
-/

namespace SyncCircuit

namespace Expr

namespace Operators

variable {lost : Set Fault} {env : Environment} {e : Expr}

theorem both_keeps (op : Bool → Bool → Bool) {a a' b b' : Except Fault Bool}
    (ha : PersistsUnless lost a a') (hb : PersistsUnless lost b b') :
    PersistsUnless lost (both op a b) (both op a' b') :=
  ha.bind fun v _ => hb.map (op v)

theorem full_keeps : Keeps lost full full :=
  ⟨fun _ _ _ _ ha hb => both_keeps (· && ·) ha hb, fun _ _ _ _ ha hb => both_keeps (· || ·) ha hb⟩

/-- The operand that is left out would not have changed the value. -/
theorem both_decidedBy {op : Bool → Bool → Bool} {decisive : Bool}
    (hop : ∀ v w, op v w = if v = decisive then v else w) {a a' b b' : Except Fault Bool}
    (ha : PersistsUnless Set.univ a a') (hb : PersistsUnless Set.univ b b') :
    PersistsUnless Set.univ (both op a b) (decidedBy decisive a' b') := by
  refine ha.bind fun v _ => ?_
  rw [PersistsUnless.univ_iff] at hb ⊢
  intro r hr
  cases b with
  | error f => cases hr
  | ok w =>
    obtain rfl : op v w = r := by simpa [Except.map] using hr
    rw [hop]
    split
    · rfl
    · exact hb w rfl

theorem full_keeps_short : Keeps Set.univ full short where
  and _ _ _ _ ha hb := both_decidedBy (by decide) ha hb
  or _ _ _ _ ha hb := both_decidedBy (by decide) ha hb

def EndsIn (ops : Operators) (env : Environment) (e : Expr) (r : Except Fault Bool) : Prop :=
  r ≠ .error .endlessCall ∧ ∃ n, ops.evalWithin n env e = r

def Endless (ops : Operators) (env : Environment) (e : Expr) : Prop :=
  ∀ n, ops.evalWithin n env e = .error .endlessCall

theorem endless_or_endsIn (ops : Operators) (env : Environment) (e : Expr) :
    ops.Endless env e ∨ ∃ r, ops.EndsIn env e r := by
  by_cases h : ops.Endless env e
  · exact Or.inl h
  · unfold Endless at h
    push Not at h
    obtain ⟨n, hn⟩ := h
    exact Or.inr ⟨_, hn, n, rfl⟩

theorem EndsIn.unique {ops : Operators} (hops : Keeps {.endlessCall} ops ops)
    {r r' : Except Fault Bool} (h : ops.EndsIn env e r) (h' : ops.EndsIn env e r') : r = r' := by
  obtain ⟨hr, n, hn⟩ := h
  obtain ⟨hr', m, hm⟩ := h'
  have persists : ∀ k l, k ≤ l → Persists (ops.evalWithin k env e) (ops.evalWithin l env e) := by
    intro k l hkl
    rw [← persistsUnless_endlessCall]
    exact hops.evalWith (fun d values => hops.enter_le hkl d values) env e
  have hmax : ∀ k r, r ≠ .error .endlessCall → ops.evalWithin k env e = r →
      k ≤ max n m → ops.evalWithin (max n m) env e = r := by
    intro k r hr hk hle
    rw [← hk] at hr ⊢
    exact (persists k _ hle).eq_of_ne hr
  rw [← hmax n r hr hn (Nat.le_max_left n m), ← hmax m r' hr' hm (Nat.le_max_right n m)]

theorem endsIn_short {r : Except Fault Bool} :
    short.EndsIn env e r ↔ r ≠ .error .endlessCall ∧ e.eval env = r := by
  constructor
  · rintro ⟨hr, n, hn⟩
    rw [evalWithin_short] at hn
    subst hn
    exact ⟨hr, (evalWithin_persists_eval n env e).eq_of_ne hr⟩
  · rintro ⟨hr, he⟩
    refine ⟨hr, env.definitions.depth, ?_⟩
    rw [evalWithin_short]
    exact he

theorem eval_of_full {v : Bool} (h : full.EndsIn env e (.ok v)) : e.eval env = .ok v := by
  obtain ⟨-, n, hn⟩ := h
  have hkept := full_keeps_short.evalWith (full_keeps_short.enter env.definitions n) env e
  have hshort := PersistsUnless.univ_iff.mp hkept v hn
  have hends : short.EndsIn env e (.ok v) := ⟨by simp, n, hshort⟩
  exact (endsIn_short.mp hends).2

/-- Evaluation in full either never ends or ends in one result. If that is a value, it is the value
of the expression. Where evaluation has a fault or no end, so has evaluation in full, though it can
be the other of the two. -/
theorem eval_refines_full (env : Environment) (e : Expr) :
    (full.Endless env e ∨ ∃ r, full.EndsIn env e r ∧ ∀ r', full.EndsIn env e r' → r' = r) ∧
    (∀ v, full.EndsIn env e (.ok v) → e.eval env = .ok v) ∧
    ((e.Endless env ∨ ∃ f, e.eval env = .error f) →
      full.Endless env e ∨ ∃ g, full.EndsIn env e (.error g)) ∧
    (∀ v w, full.EndsIn env e (.ok v) → e.eval env = .ok w → v = w) := by
  refine ⟨?_, fun v => eval_of_full, ?_, ?_⟩
  · refine (full.endless_or_endsIn env e).imp_right ?_
    rintro ⟨r, hr⟩
    exact ⟨r, hr, fun r' hr' => hr'.unique full_keeps hr⟩
  · intro hnone
    obtain ⟨f, hf⟩ : ∃ f, e.eval env = .error f := by
      rcases hnone with hendless | hfault
      · exact ⟨_, eval_eq_endlessCall_iff.mpr hendless⟩
      · exact hfault
    refine (full.endless_or_endsIn env e).imp_right ?_
    rintro ⟨r | v, hr⟩
    · exact ⟨r, hr⟩
    · have hv := eval_of_full hr
      rw [hf] at hv
      cases hv
  · intro v w hv hw
    have heval := eval_of_full hv
    rw [hw] at heval
    exact (Except.ok.inj heval).symm

end Operators

def choice : Definition :=
  ⟨"choose", ["S", "X", "Y"],
    .or (.and (.signal "S") (.signal "X")) (.and (.not (.signal "S")) (.signal "Y"))⟩

def choiceScope : Environment := (Environment.empty (.ofList [choice])).bindAll [("A", true)]

def chosen : Expr := call "choose" [signal "A", not (signal "A"), signal "A"]

/-- What decides nothing may be missing, except where both operands are evaluated. -/
theorem eval_refines_full_chosen :
    chosen.eval choiceScope = .ok false ∧
    (or (signal "A") (signal "B")).eval choiceScope = .ok true ∧
    Operators.full.EndsIn choiceScope (or (signal "A") (signal "B"))
      (.error (.unboundSignal "B")) := by
  have hfull : Operators.full.EndsIn choiceScope chosen (.ok false) :=
    ⟨by simp, 1, by decide +kernel⟩
  refine ⟨?_, by decide +kernel, by simp, 0, by decide +kernel⟩
  exact (Operators.eval_refines_full choiceScope chosen).2.1 false hfull

end Expr

end SyncCircuit
