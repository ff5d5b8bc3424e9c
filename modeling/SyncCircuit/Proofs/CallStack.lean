import Mathlib.Algebra.Order.BigOperators.Group.Finset
import Mathlib.Data.List.Duplicate
import SyncCircuit.Proofs.Nesting

/-!
Calls that are active at the same time. Evaluation cut off at a depth has reached a stack of more
calls than that, and what happens above a call depends on its name and arguments alone. So a call
that is entered inside of itself is entered again and again, and evaluation that ends keeps all
active calls different.
-/

namespace SyncCircuit

open SyncCircuit.Expr (Persists PersistsUnless inTurn)

abbrev Activation := Name × List Bool

namespace Environment

theorem get_ne_endlessCall (env : Environment) (x : Name) : env.get x ≠ .error .endlessCall := by
  unfold get
  cases env.values[x]? <;> simp

theorem definition_ne_endlessCall (env : Environment) (f : Name) :
    env.definition f ≠ .error .endlessCall := by
  unfold definition
  cases env.definitions.find? f <;> simp

end Environment

namespace Expr

mutual

/-- The calls that evaluation enters from here, not from bodies, in the order of their entering. -/
def entered (env : Environment) : Expr → List Activation
  | signal _ => []
  | and a b => entered env a ++ if a.eval env = .ok true then entered env b else []
  | or a b => entered env a ++ if a.eval env = .ok false then entered env b else []
  | not a => entered env a
  | call f as =>
    match env.definition f with
    | .error _ => []
    | .ok d =>
      if d.arity = as.length then
        enteredAll env as ++
          match inTurn (as.map (eval env)) with
          | .ok values => [(f, values)]
          | .error _ => []
      else []

/-- Arguments after one without a value are not evaluated. -/
def enteredAll (env : Environment) : List Expr → List Activation
  | [] => []
  | a :: as =>
    entered env a ++
      match a.eval env with
      | .ok _ => enteredAll env as
      | .error _ => []

end

section entered

variable {env : Environment} {e : Expr} {f : Name} {values : List Bool}

theorem mem_entered_call {as : List Expr} {c : Activation} :
    c ∈ (call f as).entered env ↔ ∃ d, env.definition f = .ok d ∧ d.arity = as.length ∧
      (c ∈ enteredAll env as ∨ ∃ values, inTurn (as.map (eval env)) = .ok values ∧
        c = (f, values)) := by
  unfold entered
  cases hd : env.definition f with
  | error g => simp
  | ok d =>
    by_cases ha : d.arity = as.length
    · cases inTurn (as.map (eval env)) <;> simp [ha]
    · simp [ha]

theorem mem_enteredAll_cons {a : Expr} {as : List Expr} {c : Activation} :
    c ∈ enteredAll env (a :: as) ↔
      c ∈ a.entered env ∨ (∃ v, a.eval env = .ok v) ∧ c ∈ enteredAll env as := by
  rw [enteredAll]
  cases a.eval env <;> simp

theorem mem_enteredAll {as : List Expr} {c : Activation} (h : c ∈ enteredAll env as) :
    ∃ a ∈ as, c ∈ a.entered env := by
  induction as with
  | nil => simp [enteredAll] at h
  | cons a as ih =>
    rcases mem_enteredAll_cons.mp h with h | ⟨_, h⟩
    · exact ⟨a, List.mem_cons_self, h⟩
    · obtain ⟨b, hb, h⟩ := ih h
      exact ⟨b, List.mem_cons_of_mem a hb, h⟩

theorem definition_of_entered (h : (f, values) ∈ e.entered env) :
    ∃ d, env.definition f = .ok d ∧ values.length = d.arity := by
  induction e using induct with
  | signal x => simp [entered] at h
  | and a b iha ihb =>
    rw [entered, List.mem_append] at h
    rcases h with h | h
    · exact iha h
    · split at h
      · exact ihb h
      · cases h
  | or a b iha ihb =>
    rw [entered, List.mem_append] at h
    rcases h with h | h
    · exact iha h
    · split at h
      · exact ihb h
      · cases h
  | not a ih =>
    rw [entered] at h
    exact ih h
  | call g as ih =>
    obtain ⟨d, hd, ha, h | ⟨values', hv, heq⟩⟩ := mem_entered_call.mp h
    · obtain ⟨a, hmem, h⟩ := mem_enteredAll h
      exact ih a hmem h
    · cases heq
      refine ⟨d, hd, ?_⟩
      rw [length_of_inTurn hv, List.length_map, ha]

end entered

section cutOff

variable {env : Environment} {e : Expr} {n : ℕ}

theorem Persists.bind_eq_endlessCall {α β : Type} {r r' : Except Fault α} (h : Persists r r')
    (k : α → Except Fault β) : r.bind k = .error .endlessCall ↔
      r = .error .endlessCall ∨ ∃ v, r' = .ok v ∧ k v = .error .endlessCall := by
  rcases h with rfl | rfl
  · simp [Except.bind]
  · cases r' <;> simp [Except.bind]

theorem decidedBy_eq_endlessCall {r r' s : Except Fault Bool} (decisive : Bool)
    (h : Persists r r') : Operators.decidedBy decisive r s = .error .endlessCall ↔
      r = .error .endlessCall ∨ r' = .ok (!decisive) ∧ s = .error .endlessCall := by
  unfold Operators.decidedBy
  rw [h.bind_eq_endlessCall]
  refine or_congr_right ⟨?_, ?_⟩
  · rintro ⟨v, hv, hs⟩
    split at hs
    · cases hs
    · next hne => exact ⟨by rw [hv, Bool.eq_not.mpr hne], hs⟩
  · rintro ⟨hv, hs⟩
    exact ⟨_, hv, by simp [hs]⟩

/-- The call needs more room than this. -/
def CutOff (ds : Definitions) (n : ℕ) (c : Activation) : Prop :=
  ∃ d, ds.find? c.1 = some d ∧ ds.enter n d c.2 = .error .endlessCall

theorem inTurn_evalWithin_eq_endlessCall {as : List Expr}
    (h : ∀ a ∈ as, a.evalWithin n env = .error .endlessCall ↔
      ∃ c ∈ a.entered env, CutOff env.definitions n c) :
    inTurn (as.map (evalWithin n env)) = .error .endlessCall ↔
      ∃ c ∈ enteredAll env as, CutOff env.definitions n c := by
  induction as with
  | nil => simp [inTurn, enteredAll]
  | cons a as ih =>
    rw [List.forall_mem_cons] at h
    have hmap : ∀ v, (inTurn (as.map (evalWithin n env))).map (v :: ·) = .error .endlessCall ↔
        inTurn (as.map (evalWithin n env)) = .error .endlessCall := by
      intro v
      cases inTurn (as.map (evalWithin n env)) <;> simp [Except.map]
    rw [List.map_cons, inTurn, (evalWithin_persists_eval n env a).bind_eq_endlessCall, h.1]
    simp only [hmap, ih h.2, mem_enteredAll_cons]
    constructor
    · rintro (⟨c, hc, hcut⟩ | ⟨v, hv, c, hc, hcut⟩)
      · exact ⟨c, Or.inl hc, hcut⟩
      · exact ⟨c, Or.inr ⟨⟨v, hv⟩, hc⟩, hcut⟩
    · rintro ⟨c, hc | ⟨⟨v, hv⟩, hc⟩, hcut⟩
      · exact Or.inl ⟨c, hc, hcut⟩
      · exact Or.inr ⟨v, hv, c, hc, hcut⟩

section equations

theorem evalWithin_eq_short (n : ℕ) (env : Environment) :
    evalWithin n env = Operators.short.evalWith (env.definitions.enter n) env := by
  funext e
  rw [evalWith_short]
  rfl

theorem evalWithin_and_eq_endlessCall (a b : Expr) :
    (and a b).evalWithin n env = .error .endlessCall ↔ a.evalWithin n env = .error .endlessCall ∨
      a.eval env = .ok true ∧ b.evalWithin n env = .error .endlessCall := by
  rw [evalWithin_eq_short, Operators.evalWith_and, ← evalWithin_eq_short]
  exact decidedBy_eq_endlessCall false (evalWithin_persists_eval n env a)

theorem evalWithin_or_eq_endlessCall (a b : Expr) :
    (or a b).evalWithin n env = .error .endlessCall ↔ a.evalWithin n env = .error .endlessCall ∨
      a.eval env = .ok false ∧ b.evalWithin n env = .error .endlessCall := by
  rw [evalWithin_eq_short, Operators.evalWith_or, ← evalWithin_eq_short]
  exact decidedBy_eq_endlessCall true (evalWithin_persists_eval n env a)

theorem evalWithin_not_eq_endlessCall (a : Expr) :
    (not a).evalWithin n env = .error .endlessCall ↔ a.evalWithin n env = .error .endlessCall := by
  rw [evalWithin_eq_short, Operators.evalWith_not, ← evalWithin_eq_short]
  cases a.evalWithin n env <;> simp [Except.map]

theorem evalWithin_call_eq_endlessCall (f : Name) (as : List Expr) :
    (call f as).evalWithin n env = .error .endlessCall ↔
      ∃ d, env.definition f = .ok d ∧ d.arity = as.length ∧
        (inTurn (as.map (evalWithin n env)) = .error .endlessCall ∨
          ∃ values, inTurn (as.map (eval env)) = .ok values ∧
            env.definitions.enter n d values = .error .endlessCall) := by
  have hargs : Persists (inTurn (as.map (evalWithin n env))) (inTurn (as.map (eval env))) := by
    rw [← persistsUnless_endlessCall]
    apply PersistsUnless.inTurn
    rw [List.forall₂_map_left_iff, List.forall₂_map_right_iff, List.forall₂_same]
    intro a _
    exact persistsUnless_endlessCall.mpr (evalWithin_persists_eval n env a)
  rw [evalWithin_eq_short, Operators.evalWith_call, ← evalWithin_eq_short]
  cases hd : env.definition f with
  | error g =>
    have hg : g ≠ .endlessCall := by
      rintro rfl
      exact env.definition_ne_endlessCall f hd
    simp [Except.bind, hg]
  | ok d =>
    by_cases ha : d.arity = as.length
    · simpa [Except.bind, ha] using hargs.bind_eq_endlessCall (env.definitions.enter n d)
    · simp [Except.bind, ha]

end equations

theorem evalWithin_eq_endlessCall_iff :
    e.evalWithin n env = .error .endlessCall ↔ ∃ c ∈ e.entered env, CutOff env.definitions n c := by
  induction e using induct with
  | signal x =>
    rw [evalWithin_eq_short, Operators.evalWith_signal]
    simp [entered, env.get_ne_endlessCall x]
  | and a b iha ihb =>
    simp only [evalWithin_and_eq_endlessCall, iha, ihb, entered, List.mem_append]
    by_cases ha : a.eval env = .ok true <;> simp [ha, or_and_right, exists_or]
  | or a b iha ihb =>
    simp only [evalWithin_or_eq_endlessCall, iha, ihb, entered, List.mem_append]
    by_cases ha : a.eval env = .ok false <;> simp [ha, or_and_right, exists_or]
  | not a ih => simp only [evalWithin_not_eq_endlessCall, ih, entered]
  | call f as ih =>
    simp only [evalWithin_call_eq_endlessCall, inTurn_evalWithin_eq_endlessCall ih,
      mem_entered_call]
    constructor
    · rintro ⟨d, hd, ha, ⟨c, hc, hcut⟩ | ⟨values, hv, hcut⟩⟩
      · exact ⟨c, ⟨d, hd, ha, Or.inl hc⟩, hcut⟩
      · refine ⟨(f, values), ⟨d, hd, ha, Or.inr ⟨values, hv, rfl⟩⟩, d, ?_, hcut⟩
        exact Environment.find?_of_definition hd
    · rintro ⟨c, ⟨d, hd, ha, hc | ⟨values, hv, rfl⟩⟩, hcut⟩
      · exact ⟨d, hd, ha, Or.inl ⟨c, hc, hcut⟩⟩
      · obtain ⟨d', hd', hcut⟩ := hcut
        obtain rfl := Except.ok.inj (hd.symm.trans (Environment.definition_eq_ok hd'))
        exact ⟨d, hd, ha, Or.inr ⟨values, hv, hcut⟩⟩

end cutOff

end Expr

open SyncCircuit.Expr (CutOff)

/-- Calls that are active at once while an expression is evaluated, each entered from the body of
the one before. -/
inductive CallStack : Environment → Expr → List Activation → Prop where
  | nil (env : Environment) (e : Expr) : CallStack env e []
  | enter {env : Environment} {e : Expr} {c : Activation} {d : Definition}
      {calls : List Activation} : c ∈ e.entered env → env.definitions.find? c.1 = some d →
      CallStack (d.scope env c.2) d.body calls → CallStack env e (c :: calls)

/-- Calls that can be active above a call, whatever there is below it. -/
def Above (ds : Definitions) (c : Activation) (calls : List Activation) : Prop :=
  ∃ d, ds.find? c.1 = some d ∧ CallStack (d.scope (.empty ds) c.2) d.body calls

section callStack

variable {env : Environment} {e : Expr} {ds : Definitions} {b c : Activation}
  {calls before between after after' : List Activation} {n : ℕ}

theorem CallStack.cons_iff : CallStack env e (c :: calls) ↔
    c ∈ e.entered env ∧ Above env.definitions c calls := by
  constructor
  · intro h
    cases h with
    | enter hc hd h => exact ⟨hc, _, hd, h⟩
  · rintro ⟨hc, d, hd, h⟩
    exact .enter hc hd h

theorem exists_callStack_succ_iff : (∃ calls, CallStack env e calls ∧ calls.length = n + 1) ↔
    ∃ c ∈ e.entered env, ∃ calls, Above env.definitions c calls ∧ calls.length = n := by
  constructor
  · rintro ⟨_ | ⟨c, calls⟩, h, hlength⟩
    · cases hlength
    · obtain ⟨hc, habove⟩ := CallStack.cons_iff.mp h
      exact ⟨c, hc, calls, habove, Nat.succ.inj hlength⟩
  · rintro ⟨c, hc, calls, habove, rfl⟩
    exact ⟨c :: calls, CallStack.cons_iff.mpr ⟨hc, habove⟩, rfl⟩

/-- A call is cut off where the calls above it can be as many as it has room for. -/
theorem cutOff_iff_above : CutOff ds n c ↔ ∃ calls, Above ds c calls ∧ calls.length = n := by
  induction n generalizing c with
  | zero =>
    constructor
    · rintro ⟨d, hd, -⟩
      exact ⟨[], ⟨d, hd, .nil _ _⟩, rfl⟩
    · rintro ⟨calls, ⟨d, hd, -⟩, -⟩
      exact ⟨d, hd, rfl⟩
  | succ n ih =>
    -- The body has room for one call less, and the first call of the stack is one it enters.
    have hbody : ∀ d : Definition, ds.enter (n + 1) d c.2 = .error .endlessCall ↔
        ∃ calls, CallStack (d.scope (.empty ds) c.2) d.body calls ∧ calls.length = n + 1 := by
      intro d
      rw [Definitions.enter_succ, Expr.evalWithin_eq_endlessCall_iff, exists_callStack_succ_iff]
      simp only [Definition.scope_definitions, Environment.empty_definitions, ih]
    simp only [CutOff, Above, hbody]
    constructor
    · rintro ⟨d, hd, calls, h, hlength⟩
      exact ⟨calls, ⟨d, hd, h⟩, hlength⟩
    · rintro ⟨calls, ⟨d, hd, h⟩, hlength⟩
      exact ⟨d, hd, calls, h, hlength⟩

theorem Expr.evalWithin_eq_endlessCall_iff_callStack :
    e.evalWithin n env = .error .endlessCall ↔
      ∃ calls, CallStack env e calls ∧ calls.length = n + 1 := by
  rw [evalWithin_eq_endlessCall_iff, exists_callStack_succ_iff]
  simp only [cutOff_iff_above]

theorem Expr.endless_iff_callStack : e.Endless env ↔
    ∀ n, ∃ calls, CallStack env e calls ∧ n < calls.length := by
  constructor
  · intro h n
    obtain ⟨calls, hcalls, hlength⟩ := evalWithin_eq_endlessCall_iff_callStack.mp (h n)
    exact ⟨calls, hcalls, by omega⟩
  · intro h n
    obtain ⟨calls, hcalls, hn⟩ := h n
    obtain ⟨m, hm⟩ : ∃ m, calls.length = m + 1 := ⟨calls.length - 1, by omega⟩
    have hcut := evalWithin_eq_endlessCall_iff_callStack.mpr ⟨calls, hcalls, hm⟩
    have hle : n ≤ m := by omega
    rcases evalWithin_persists hle env e with h | h
    · exact h
    · rw [← h, hcut]

/-- Above a call there can be other calls than there are, while nothing below it changes. -/
theorem CallStack.replace (h : CallStack env e (before ++ c :: after)) :
    Above env.definitions c after ∧
      ∀ after', Above env.definitions c after' → CallStack env e (before ++ c :: after') := by
  induction before generalizing env e with
  | nil =>
    rw [List.nil_append] at h
    obtain ⟨hc, habove⟩ := cons_iff.mp h
    exact ⟨habove, fun after' habove' => cons_iff.mpr ⟨hc, habove'⟩⟩
  | cons b before ih =>
    rw [List.cons_append] at h
    obtain ⟨hb, d, hd, h⟩ := cons_iff.mp h
    obtain ⟨habove, hreplace⟩ := ih h
    rw [Definition.scope_definitions] at habove hreplace
    exact ⟨habove, fun after' habove' => cons_iff.mpr ⟨hb, d, hd, hreplace after' habove'⟩⟩

theorem Above.replace (h : Above ds b (before ++ c :: after)) (h' : Above ds c after') :
    Above ds b (before ++ c :: after') := by
  obtain ⟨d, hd, h⟩ := h
  refine ⟨d, hd, h.replace.2 after' ?_⟩
  rw [Definition.scope_definitions]
  exact h'

/-- What is above a call inside of itself can be there again. -/
theorem Above.again (h : Above ds c (between ++ c :: after)) (n : ℕ) :
    ∃ calls, Above ds c calls ∧ n ≤ calls.length := by
  induction n with
  | zero => exact ⟨_, h, Nat.zero_le _⟩
  | succ n ih =>
    obtain ⟨calls, hcalls, hn⟩ := ih
    refine ⟨between ++ c :: calls, h.replace hcalls, ?_⟩
    rw [List.length_append, List.length_cons]
    omega

theorem CallStack.endless_of_repeated
    (h : CallStack env e (before ++ c :: (between ++ c :: after))) : e.Endless env := by
  rw [Expr.endless_iff_callStack]
  intro n
  obtain ⟨habove, hreplace⟩ := h.replace
  obtain ⟨calls, hcalls, hn⟩ := habove.again n
  refine ⟨before ++ c :: calls, hreplace calls hcalls, ?_⟩
  rw [List.length_append, List.length_cons]
  omega

theorem exists_repeated (h : ¬ calls.Nodup) :
    ∃ before c between after, calls = before ++ c :: (between ++ c :: after) := by
  rw [← List.exists_duplicate_iff_not_nodup] at h
  obtain ⟨c, h⟩ := h
  rw [List.duplicate_iff_sublist, List.cons_sublist_iff] at h
  obtain ⟨l₁, l₂, rfl, h₁, h₂⟩ := h
  rw [List.singleton_sublist] at h₂
  obtain ⟨before, rest, rfl⟩ := List.append_of_mem h₁
  obtain ⟨between, after, rfl⟩ := List.append_of_mem h₂
  exact ⟨before, c, rest ++ between, after, by simp⟩

theorem CallStack.find?_of_mem (h : CallStack env e calls) (hc : c ∈ calls) :
    ∃ d, env.definitions.find? c.1 = some d ∧ c.2.length = d.arity := by
  induction h with
  | nil => cases hc
  | enter hentered hd _ ih =>
    rw [Definition.scope_definitions] at ih
    rcases List.mem_cons.mp hc with rfl | hc
    · obtain ⟨d, hd, harity⟩ := Expr.definition_of_entered hentered
      exact ⟨d, Environment.find?_of_definition hd, harity⟩
    · exact ih hc

end callStack

/-- How many different calls there can be: the functions that the names stand for, each with all the
values of its arguments. -/
def Definitions.activations (ds : Definitions) : ℕ :=
  ∑ f ∈ ds.names.toFinset, ((ds.find? f).map fun d => Nat.pow 2 d.arity).getD 0

theorem CallStack.length_le {env : Environment} {e : Expr} {calls : List Activation}
    (h : CallStack env e calls) (hn : calls.Nodup) :
    calls.length ≤ env.definitions.activations := by
  have hmaps : Set.MapsTo Prod.fst (calls.toFinset : Set Activation)
      (env.definitions.names.toFinset : Set Name) := by
    intro c hc
    obtain ⟨d, hd, -⟩ := h.find?_of_mem (List.mem_toFinset.mp hc)
    exact List.mem_toFinset.mpr (Definitions.mem_names_of_find? hd)
  rw [← List.toFinset_card_of_nodup hn, Finset.card_eq_sum_card_fiberwise hmaps]
  refine Finset.sum_le_sum fun f _ => ?_
  cases hd : env.definitions.find? f with
  | none =>
    have hempty : calls.toFinset.filter (fun c => c.1 = f) = ∅ := by
      rw [Finset.filter_eq_empty_iff]
      rintro c hc rfl
      obtain ⟨d, hsome, -⟩ := h.find?_of_mem (List.mem_toFinset.mp hc)
      simp [hd] at hsome
    rw [hempty, Finset.card_empty]
    exact Nat.zero_le _
  | some d =>
    have hfit : calls.toFinset.filter (fun c => c.1 = f) ⊆ env.definitions.fitting f := by
      intro c hc
      obtain ⟨hmem, rfl⟩ := Finset.mem_filter.mp hc
      obtain ⟨d, hd, harity⟩ := h.find?_of_mem (List.mem_toFinset.mp hmem)
      exact Definitions.mem_fitting hd harity
    have hcard := env.definitions.card_fitting_le f
    rw [hd] at hcard
    exact (Finset.card_le_card hfit).trans hcard

namespace Expr

theorem endless_iff_repeated {env : Environment} {e : Expr} : e.Endless env ↔
    ∃ before c between after, CallStack env e (before ++ c :: (between ++ c :: after)) := by
  constructor
  · intro he
    obtain ⟨calls, h, hlt⟩ := endless_iff_callStack.mp he env.definitions.activations
    have hrepeated : ¬ calls.Nodup := by
      intro hn
      have hle := h.length_le hn
      omega
    obtain ⟨before, c, between, after, rfl⟩ := exists_repeated hrepeated
    exact ⟨before, c, between, after, h⟩
  · rintro ⟨before, c, between, after, h⟩
    exact h.endless_of_repeated

/-- If evaluation ends, all calls that are active at once are different, and no more than there can
be different ones, so that evaluation needs no more room. If a call is entered inside of itself,
evaluation does not end. -/
theorem activeCalls (env : Environment) (e : Expr) :
    (¬ e.Endless env →
      (∀ calls, CallStack env e calls →
        calls.Nodup ∧ calls.length ≤ env.definitions.activations) ∧
      e.evalWithin env.definitions.activations env = e.eval env) ∧
    (∀ before c between after, CallStack env e (before ++ c :: (between ++ c :: after)) →
      e.Endless env) := by
  constructor
  · intro he
    have hstacks : ∀ calls, CallStack env e calls →
        calls.Nodup ∧ calls.length ≤ env.definitions.activations := by
      intro calls h
      have hn : calls.Nodup := by
        by_contra hrepeated
        obtain ⟨before, c, between, after, rfl⟩ := exists_repeated hrepeated
        exact he (endless_iff_repeated.mpr ⟨before, c, between, after, h⟩)
      exact ⟨hn, h.length_le hn⟩
    refine ⟨hstacks, ?_⟩
    rcases evalWithin_persists_eval env.definitions.activations env e with hcut | heval
    · obtain ⟨calls, h, hlength⟩ := evalWithin_eq_endlessCall_iff_callStack.mp hcut
      have hle := (hstacks calls h).2
      omega
    · exact heval.symm
  · intro before c between after h
    exact endless_iff_repeated.mpr ⟨before, c, between, after, h⟩

/-- The first argument goes, the second takes its place, and zeros follow. -/
def shifting : Definition :=
  ⟨"shift", ["X", "Y"], .and (.signal "X")
    (.call "shift" [.signal "Y", .and (.signal "X") (.not (.signal "X"))])⟩

def turning : Definition := ⟨"turn", ["X"], .call "turn" [.not (.signal "X")]⟩

def shiftingScope : Environment :=
  (Environment.empty (.ofList [shifting, turning])).bindAll [("A", true)]

theorem activeCalls_shifting :
    shiftingScope.definitions.activations = 6 ∧
    CallStack shiftingScope (call "shift" [signal "A", signal "A"])
      [("shift", [true, true]), ("shift", [true, false]), ("shift", [false, false])] ∧
    [("shift", [true, true]), ("shift", [true, false]), ("shift", [false, false])].Nodup ∧
    (call "turn" [signal "A"]).Endless shiftingScope := by
  have hstack : CallStack shiftingScope (call "shift" [signal "A", signal "A"])
      [("shift", [true, true]), ("shift", [true, false]), ("shift", [false, false])] :=
    .enter (d := shifting) (by decide +kernel) (by decide +kernel)
      (.enter (d := shifting) (by decide +kernel) (by decide +kernel)
        (.enter (d := shifting) (by decide +kernel) (by decide +kernel) (.nil _ _)))
  have hturn : CallStack shiftingScope (call "turn" [signal "A"])
      [("turn", [true]), ("turn", [false]), ("turn", [true])] :=
    .enter (d := turning) (by decide +kernel) (by decide +kernel)
      (.enter (d := turning) (by decide +kernel) (by decide +kernel)
        (.enter (d := turning) (by decide +kernel) (by decide +kernel) (.nil _ _)))
  have hends : ¬ (call "shift" [signal "A", signal "A"]).Endless shiftingScope := by
    rw [← eval_eq_endlessCall_iff]
    decide +kernel
  refine ⟨by decide +kernel, hstack, ?_, ?_⟩
  · exact (((activeCalls _ _).1 hends).1 _ hstack).1
  · exact (activeCalls _ _).2 [] ("turn", [true]) [("turn", [false])] [] hturn

end Expr

end SyncCircuit
