import Mathlib.Data.Fintype.BigOperators
import SyncCircuit.Proofs.Calls

/-!
How deep calls have to nest. More room never changes a result, and if one more level changes nothing
then no level does. As each level that changes something settles a call for good, the depth of the
definitions is enough: evaluation that is cut off there is cut off at every depth.
-/

namespace SyncCircuit

open SyncCircuit.Expr (Persists)

namespace Environment

def under (ds : Definitions) (env : Environment) : Environment := ⟨ds, env.values⟩

theorem under_self {ds : Definitions} {env : Environment} (h : env.definitions = ds) :
    env.under ds = env := by
  subst h
  rfl

theorem bind_under (ds : Definitions) (env : Environment) (x : Name) (b : Bool) :
    (env.under ds).bind x b = (env.bind x b).under ds := rfl

theorem bindAll_under (ds : Definitions) (env : Environment) (bindings : List (Name × Bool)) :
    (env.under ds).bindAll bindings = (env.bindAll bindings).under ds := by
  induction bindings generalizing env with
  | nil => rfl
  | cons b bindings ih => exact ih (env.bind b.1 b.2)

theorem definition_under {ds : Definitions} {env : Environment} {f : Name}
    (h : env.definitions.find? f = ds.find? f) :
    env.definition f = (env.under ds).definition f := by
  unfold definition
  rw [h]
  rfl

theorem find?_of_definition {env : Environment} {f : Name} {d : Definition}
    (h : env.definition f = .ok d) : env.definitions.find? f = some d := by
  unfold definition at h
  split at h
  · next hd =>
    cases h
    exact hd
  · cases h

end Environment

theorem Definition.scope_under (d : Definition) (ds : Definitions) (env : Environment)
    (values : List Bool) : d.scope (env.under ds) values = (d.scope env values).under ds :=
  env.child.bindAll_under ds _

namespace Definitions

variable {ds ds' : Definitions} {n m : ℕ}

theorem enter_persists_le (ds : Definitions) (h : n ≤ m) (d : Definition) (values : List Bool) :
    Persists (ds.enter n d values) (ds.enter m d values) := by
  rw [← Expr.persistsUnless_endlessCall, ← Expr.Operators.enter_short,
    ← Expr.Operators.enter_short]
  exact Expr.Operators.short_keeps.enter_le h d values

theorem enter_persists (ds : Definitions) (n : ℕ) (d : Definition) (values : List Bool) :
    Persists (ds.enter n d values) (ds.enter (n + 1) d values) :=
  ds.enter_persists_le n.le_succ d values

/-- One level more than these changes no call. -/
def SettledAt (ds : Definitions) (n : ℕ) : Prop :=
  ∀ f d, ds.find? f = some d → ∀ values : List Bool, values.length = d.arity →
    ds.enter (n + 1) d values = ds.enter n d values

theorem SettledAt.succ (h : ds.SettledAt n) : ds.SettledAt (n + 1) := by
  intro f d _ values _
  -- The body sees the calls in it one level lower, where nothing has changed.
  apply Expr.evalWith_eq d.body (fun _ _ => rfl) (fun _ _ _ => rfl)
  intro g _ _ d' hd' values' hv'
  have hd' := Environment.find?_of_definition hd'
  rw [Definition.scope_definitions] at hd'
  exact h g d' hd' values' hv'

theorem SettledAt.enter_eq (h : ds.SettledAt n) (hm : n ≤ m) {f : Name} {d : Definition}
    (hd : ds.find? f = some d) {values : List Bool} (hv : values.length = d.arity) :
    ds.enter m d values = ds.enter n d values := by
  have aux : ds.SettledAt m ∧ ds.enter m d values = ds.enter n d values := by
    induction m, hm using Nat.le_induction with
    | base => exact ⟨h, rfl⟩
    | succ m _ ih => exact ⟨ih.1.succ, (ih.1 f d hd values hv).trans ih.2⟩
  exact aux.2

section counting

open scoped Classical

def fitting (ds : Definitions) (f : Name) : Finset (Name × List Bool) :=
  (Finset.univ : Finset (List.Vector Bool (((ds.find? f).map Definition.arity).getD 0))).image
    fun values => (f, values.toList)

theorem card_fitting_le (ds : Definitions) (f : Name) :
    (ds.fitting f).card ≤ Nat.pow 2 (((ds.find? f).map Definition.arity).getD 0) := by
  refine Finset.card_image_le.trans (le_of_eq ?_)
  rw [Finset.card_univ, card_vector, Fintype.card_bool]
  rfl

theorem mem_fitting {f : Name} {d : Definition} (hd : ds.find? f = some d) {values : List Bool}
    (hv : values.length = d.arity) : (f, values) ∈ ds.fitting f := by
  refine Finset.mem_image.mpr ⟨⟨values, ?_⟩, Finset.mem_univ _, rfl⟩
  rw [hd]
  exact hv

/-- The calls that are cut off when no more than `n` levels are entered. -/
noncomputable def cutOff (ds : Definitions) (n : ℕ) : Finset (Name × List Bool) :=
  (ds.names.toFinset.biUnion ds.fitting).filter fun call =>
    ∃ d, ds.find? call.1 = some d ∧ ds.enter n d call.2 = .error .endlessCall

theorem mem_cutOff {f : Name} {d : Definition} (hd : ds.find? f = some d) {values : List Bool}
    (hv : values.length = d.arity) :
    (f, values) ∈ ds.cutOff n ↔ ds.enter n d values = .error .endlessCall := by
  unfold cutOff
  rw [Finset.mem_filter]
  constructor
  · rintro ⟨_, d', hd', h⟩
    obtain rfl := Option.some.inj (hd.symm.trans hd')
    exact h
  · intro h
    refine ⟨Finset.mem_biUnion.mpr ⟨f, ?_, mem_fitting hd hv⟩, d, hd, h⟩
    exact List.mem_toFinset.mpr (mem_names_of_find? hd)

theorem card_cutOff_le_depth (ds : Definitions) (n : ℕ) : (ds.cutOff n).card ≤ ds.depth := by
  refine (Finset.card_filter_le _ _).trans ?_
  unfold names depth
  induction ds.position.toList with
  | nil => exact Nat.zero_le _
  | cons p ps ih =>
    rw [List.map_cons, List.toFinset_cons, Finset.biUnion_insert, List.foldr_cons]
    exact (Finset.card_union_le _ _).trans (Nat.add_le_add (ds.card_fitting_le p.1) ih)

theorem cutOff_succ_subset (ds : Definitions) (n : ℕ) : ds.cutOff (n + 1) ⊆ ds.cutOff n := by
  intro call hcall
  unfold cutOff at hcall ⊢
  rw [Finset.mem_filter] at hcall ⊢
  obtain ⟨hm, d, hd, h⟩ := hcall
  refine ⟨hm, d, hd, ?_⟩
  rcases ds.enter_persists n d call.2 with hn | hn
  · exact hn
  · rw [← hn, h]

theorem card_cutOff_succ_lt (h : ¬ ds.SettledAt n) :
    (ds.cutOff (n + 1)).card < (ds.cutOff n).card := by
  unfold SettledAt at h
  push Not at h
  obtain ⟨f, d, hd, values, hv, hne⟩ := h
  apply Finset.card_lt_card
  refine (Finset.ssubset_iff_of_subset (ds.cutOff_succ_subset n)).mpr ⟨(f, values), ?_, ?_⟩
  · rw [mem_cutOff hd hv]
    exact (ds.enter_persists n d values).resolve_right hne
  · rw [mem_cutOff hd hv]
    intro hcut
    rcases ds.enter_persists n d values with hn | hn
    · exact hne (hcut.trans hn.symm)
    · exact hne hn

/-- Each level settles a call that was cut off before, until no level changes anything. -/
theorem settledAt_or_card_le (ds : Definitions) (n : ℕ) :
    ds.SettledAt n ∨ (ds.cutOff n).card + n ≤ ds.depth := by
  induction n with
  | zero => exact Or.inr (ds.card_cutOff_le_depth 0)
  | succ n ih =>
    by_cases hs : ds.SettledAt n
    · exact Or.inl hs.succ
    · have hlt := card_cutOff_succ_lt hs
      have hle := ih.resolve_left hs
      exact Or.inr (by omega)

theorem settledAt_depth (ds : Definitions) : ds.SettledAt ds.depth := by
  rcases ds.settledAt_or_card_le ds.depth with h | h
  · exact h
  · have hempty : ds.cutOff ds.depth = ∅ := Finset.card_eq_zero.mp (by omega)
    intro f d hd values hv
    have hcut : (f, values) ∉ ds.cutOff ds.depth := by
      rw [hempty]
      exact Finset.notMem_empty _
    rw [mem_cutOff hd hv] at hcut
    exact (ds.enter_persists ds.depth d values).eq_of_ne hcut

end counting

theorem enter_eq_on (needed : Set Name) (hsame : ∀ f ∈ needed, ds.find? f = ds'.find? f)
    (hclosed : ∀ f ∈ needed, ∀ g, Calls ds.find? f g → g ∈ needed) (n : ℕ) {d : Definition}
    (hd : ∀ g m, Expr.Node.call g m ∈ d.body.nodes → g ∈ needed) (values : List Bool) :
    ds.enter n d values = ds'.enter n d values := by
  induction n generalizing d values with
  | zero => rfl
  | succ n ih =>
    have hempty : Environment.empty ds' = (Environment.empty ds).under ds' := rfl
    unfold enter
    rw [hempty, Definition.scope_under]
    refine Expr.evalWith_eq d.body (fun _ _ => rfl) (fun f m hf => ?_) ?_
    · apply Environment.definition_under
      rw [Definition.scope_definitions]
      exact hsame f (hd f m hf)
    · intro f m hf d' hd' values _
      have hd' := Environment.find?_of_definition hd'
      rw [Definition.scope_definitions] at hd'
      apply ih
      intro g k hg
      exact hclosed f (hd f m hf) g ⟨d', k, hd', hg⟩

theorem enter_congr (h : ∀ f, ds.find? f = ds'.find? f) (n : ℕ) (d : Definition)
    (values : List Bool) : ds.enter n d values = ds'.enter n d values := by
  apply enter_eq_on Set.univ
  · exact fun f _ => h f
  · exact fun _ _ g _ => Set.mem_univ g
  · exact fun g _ _ => Set.mem_univ g

/-- What a definition gives for arguments, its calls nested as deep as they are. -/
def apply (ds : Definitions) (d : Definition) (values : List Bool) : Except Fault Bool :=
  d.body.eval (d.scope (.empty ds) values)

theorem enter_succ (ds : Definitions) (n : ℕ) (d : Definition) (values : List Bool) :
    ds.enter (n + 1) d values = d.body.evalWithin n (d.scope (.empty ds) values) := by
  unfold Expr.evalWithin
  rw [Definition.scope_definitions]
  rfl

theorem apply_eq_enter (ds : Definitions) (d : Definition) (values : List Bool) :
    ds.apply d values = ds.enter (ds.depth + 1) d values := by
  rw [enter_succ, apply, Expr.eval, Definition.scope_definitions, Environment.empty_definitions]

end Definitions

namespace Expr

variable {env : Environment} {e : Expr} {n m : ℕ}

theorem evalWithin_persists (h : n ≤ m) (env : Environment) (e : Expr) :
    Persists (e.evalWithin n env) (e.evalWithin m env) := by
  apply evalWith_persists
  exact ⟨fun _ _ => rfl, fun _ _ _ => rfl,
    fun _ _ _ d _ values _ => env.definitions.enter_persists_le h d values⟩

/-- The depth of the definitions is deep enough. -/
theorem evalWithin_of_depth_le (h : env.definitions.depth ≤ n) (e : Expr) :
    e.evalWithin n env = e.eval env := by
  apply evalWith_eq e (fun _ _ => rfl) (fun _ _ _ => rfl)
  intro g _ _ d hd values hv
  have hd := Environment.find?_of_definition hd
  exact env.definitions.settledAt_depth.enter_eq h hd hv

theorem evalWithin_persists_eval (n : ℕ) (env : Environment) (e : Expr) :
    Persists (e.evalWithin n env) (e.eval env) := by
  rw [← evalWithin_of_depth_le (Nat.le_max_right n env.definitions.depth)]
  exact evalWithin_persists (Nat.le_max_left n _) env e

/-- No nesting of calls is deep enough to evaluate the expression. -/
def Endless (env : Environment) (e : Expr) : Prop :=
  ∀ n, e.evalWithin n env = .error .endlessCall

/-- Evaluation is cut off only where it would not end. -/
theorem eval_eq_endlessCall_iff : e.eval env = .error .endlessCall ↔ e.Endless env := by
  constructor
  · intro h n
    rcases evalWithin_persists_eval n env e with hn | hn
    · exact hn
    · rw [← hn, h]
  · intro h
    exact h env.definitions.depth

theorem eval_under {ds : Definitions} (h : ∀ f, env.definitions.find? f = ds.find? f) (e : Expr) :
    e.eval (env.under ds) = e.eval env := by
  have hl : (env.under ds).definitions.depth ≤ max ds.depth env.definitions.depth :=
    Nat.le_max_left ds.depth env.definitions.depth
  have hr : env.definitions.depth ≤ max ds.depth env.definitions.depth :=
    Nat.le_max_right ds.depth env.definitions.depth
  rw [← evalWithin_of_depth_le hl, ← evalWithin_of_depth_le hr]
  refine evalWith_eq e (fun _ _ => rfl) (fun f _ _ => ?_) fun _ _ _ d _ values _ => ?_
  · exact (Environment.definition_under (h f)).symm
  · exact (Definitions.enter_congr h _ d values).symm

theorem evalWith_apply (env : Environment) (e : Expr) :
    e.evalWith env.definitions.apply env = e.eval env := by
  apply evalWith_eq e (fun _ _ => rfl) (fun _ _ _ => rfl)
  intro g _ _ d hd values hv
  rw [Definitions.apply_eq_enter]
  exact env.definitions.settledAt_depth g d (Environment.find?_of_definition hd) values hv

theorem eval_call (env : Environment) (f : Name) (as : List Expr) :
    (call f as).eval env = (env.definition f).bind fun d =>
      if d.arity = as.length then (inTurn (as.map (eval env))).bind (env.definitions.apply d)
      else .error (.arityMismatch f d.arity as.length) := by
  have heval : Operators.short.evalWith env.definitions.apply env = eval env := by
    funext e
    rw [evalWith_short, evalWith_apply]
  rw [← evalWith_apply, ← evalWith_short, Operators.evalWith_call, heval]

theorem eval_signal (env : Environment) (x : Name) : (signal x).eval env = env.get x := by
  simp only [eval, evalWithin, evalWith]

theorem eval_call_of_values {f : Name} {d : Definition} {as : List Expr} {values : List Bool}
    (hd : env.definitions.find? f = some d) (ha : d.arity = as.length)
    (hv : as.map (eval env) = values.map .ok) :
    (call f as).eval env = env.definitions.apply d values := by
  rw [eval_call, Environment.definition_eq_ok hd, inTurn_eq_ok.mpr hv]
  simp only [Except.bind, if_pos ha]

end Expr

end SyncCircuit
