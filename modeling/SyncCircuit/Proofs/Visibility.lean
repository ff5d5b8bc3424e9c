import SyncCircuit.Proofs.Nesting

/-!
What the value of an expression may depend on: the signals that it names itself, and the functions
that it calls, directly or through the bodies of others. A body sees nothing of its caller but the
values of the arguments, and a signal that is bound in addition takes no value away.
-/

namespace SyncCircuit

open SyncCircuit.Expr (PersistsUnless inTurn)

namespace Expr

inductive Needs (lookup : Name → Option Definition) (e : Expr) : Name → Prop where
  | call {f : Name} {n : ℕ} : Node.call f n ∈ e.nodes → Needs lookup e f
  | body {f g : Name} : Needs lookup e f → Calls lookup f g → Needs lookup e g

theorem Needs.of_body {lookup : Name → Option Definition} {e : Expr} {f g : Name} {d : Definition}
    (hf : e.Needs lookup f) (hd : lookup f = some d) (hg : d.body.Needs lookup g) :
    e.Needs lookup g := by
  induction hg with
  | call hg => exact hf.body ⟨d, _, hd, hg⟩
  | body _ hcalls ih => exact ih.body hcalls

/-- What the expression needs is the same function in both tables, or missing in both. -/
def SameFunctions (ds ds' : Definitions) (e : Expr) : Prop :=
  ∀ f, e.Needs ds.find? f → ds.find? f = ds'.find? f

section

variable {env env' : Environment} {e : Expr} {lost : Set Fault}

theorem SameFunctions.definition (h : e.SameFunctions env.definitions env'.definitions) {f : Name}
    (hf : e.Needs env.definitions.find? f) : env.definition f = env'.definition f := by
  unfold Environment.definition
  rw [h f hf]

theorem evalWithin_persistsUnless (h : e.SameFunctions env.definitions env'.definitions)
    (hs : ∀ x ∈ e.signals, PersistsUnless lost (env.get x) (env'.get x)) (n : ℕ) :
    PersistsUnless lost (e.evalWithin n env) (e.evalWithin n env') := by
  apply evalWith_persistsUnless
  · intro x hx
    exact hs x (mem_signals.mpr hx)
  · intro g m hg
    exact h.definition (.call hg)
  · intro g m hg d hd values _
    have hd := Environment.find?_of_definition hd
    have hbody : ∀ k j, Node.call k j ∈ d.body.nodes → e.Needs env.definitions.find? k :=
      fun k j hk => .body (.call hg) ⟨d, j, hd, hk⟩
    right
    symm
    exact Definitions.enter_eq_on {f | e.Needs env.definitions.find? f} h
      (fun f hf k hk => .body hf hk) n hbody values

theorem eval_persistsUnless (h : e.SameFunctions env.definitions env'.definitions)
    (hs : ∀ x ∈ e.signals, PersistsUnless lost (env.get x) (env'.get x)) :
    PersistsUnless lost (e.eval env) (e.eval env') := by
  have hl := Nat.le_max_left env.definitions.depth env'.definitions.depth
  have hr := Nat.le_max_right env.definitions.depth env'.definitions.depth
  rw [← evalWithin_of_depth_le hl, ← evalWithin_of_depth_le hr]
  exact evalWithin_persistsUnless h hs _

theorem eval_eq_of_signals (h : e.SameFunctions env.definitions env'.definitions)
    (hs : ∀ x ∈ e.signals, env.values[x]? = env'.values[x]?) : e.eval env = e.eval env' := by
  symm
  rw [← PersistsUnless.empty_iff]
  apply eval_persistsUnless h
  intro x hx
  exact Or.inr (Environment.get_congr (hs x hx).symm)

end

end Expr

namespace Definitions

variable {ds ds' : Definitions}

theorem apply_eq {d : Definition} (h : d.body.SameFunctions ds ds') (values : List Bool) :
    ds.apply d values = ds'.apply d values := by
  apply Expr.eval_eq_of_signals
  · rw [Definition.scope_definitions, Definition.scope_definitions]
    exact h
  · intro x _
    have hunder : d.scope (.empty ds') values = (d.scope (.empty ds) values).under ds' :=
      d.scope_under ds' (.empty ds) values
    rw [hunder]
    rfl

end Definitions

namespace Expr

variable {env env' : Environment} {e : Expr}

/-- A call has nothing of its caller but the results of its arguments. -/
theorem eval_call_eq_of_arguments {f : Name} {as : List Expr}
    (h : (call f as).SameFunctions env.definitions env'.definitions)
    (has : as.map (eval env) = as.map (eval env')) :
    (call f as).eval env = (call f as).eval env' := by
  have hnode : Node.call f as.length ∈ (call f as).nodes := by simp
  have hneeds : (call f as).Needs env.definitions.find? f := .call hnode
  rw [eval_call, eval_call, ← h.definition hneeds, has]
  cases hd : env.definition f with
  | error g => rfl
  | ok d =>
    have hd := Environment.find?_of_definition hd
    have happly : env.definitions.apply d = env'.definitions.apply d := by
      funext values
      exact Definitions.apply_eq (fun g hg => h g (hneeds.of_body hd hg)) values
    simp only [Except.bind, happly]

/-- With the same functions, an expression has the same result in two environments that agree on the
signals it names; a call has the same result if its arguments have; and a value remains if signals
are bound in addition. -/
theorem eval_depends (h : e.SameFunctions env.definitions env'.definitions) :
    ((∀ x ∈ e.signals, env.values[x]? = env'.values[x]?) → e.eval env = e.eval env') ∧
    (∀ f as, e = call f as → as.map (eval env) = as.map (eval env') → e.eval env = e.eval env') ∧
    ((∀ (x : Name) b, env.values[x]? = some b → env'.values[x]? = some b) →
      ∀ v, e.eval env = .ok v → e.eval env' = .ok v) := by
  refine ⟨eval_eq_of_signals h, ?_, ?_⟩
  · rintro f as rfl has
    exact eval_call_eq_of_arguments h has
  · intro hadds v hv
    have hkept : PersistsUnless Set.univ (e.eval env) (e.eval env') := by
      apply eval_persistsUnless h
      intro x _
      rw [PersistsUnless.univ_iff]
      intro b hb
      rw [Environment.get_eq_ok] at hb ⊢
      exact hadds x b hb
    exact PersistsUnless.univ_iff.mp hkept v hv

def bothSet : Definition := ⟨"both", ["X", "Y"], .and (.signal "X") (.signal "Y")⟩

def bareScope : Environment :=
  (Environment.empty (.ofList [bothSet, ⟨"g", [], .signal "X"⟩])).bindAll [("A", true)]

/-- A parameter's name is bound, and what is not needed is defined in another way. -/
def crowdedScope : Environment :=
  (Environment.empty (.ofList [⟨"g", ["X"], .call "g" []⟩, bothSet])).bindAll
    [("A", true), ("X", false)]

def bothCall : Expr := call "both" [signal "A", signal "A"]

theorem sameFunctions_bothCall :
    bothCall.SameFunctions bareScope.definitions crowdedScope.definitions := by
  have hboth : bareScope.definitions.find? "both" = some bothSet := by decide +kernel
  have hneeds : ∀ f, bothCall.Needs bareScope.definitions.find? f → f = "both" := by
    intro f hf
    induction hf with
    | @call g n hg =>
      obtain ⟨rfl, -⟩ : g = "both" ∧ n = 2 := by simpa [bothCall] using hg
      rfl
    | body _ hcalls ih =>
      obtain ⟨d, n, hd, hn⟩ := hcalls
      obtain rfl := Option.some.inj (hboth.symm.trans (ih ▸ hd))
      simp [bothSet] at hn
  intro f hf
  rw [hneeds f hf, hboth]
  decide +kernel

theorem eval_depends_bothCall :
    bareScope.definitions.find? "g" ≠ crowdedScope.definitions.find? "g" ∧
      bothCall.eval bareScope = bothCall.eval crowdedScope ∧
      bothCall.eval crowdedScope = .ok true := by
  obtain ⟨hsignals, -, hadded⟩ := eval_depends sameFunctions_bothCall
  refine ⟨by decide +kernel, ?_, ?_⟩
  · apply hsignals
    intro x hx
    have hA : ∀ y ∈ bothCall.signals, y = "A" := by decide +kernel
    obtain rfl := hA x hx
    decide +kernel
  · apply hadded
    · intro x b hx
      unfold bareScope at hx
      rw [Environment.bindAll_values, Environment.empty_values] at hx
      by_cases hA : "A" = x
      · subst hA
        obtain rfl : true = b := by simpa using hx
        decide +kernel
      · simp [hA] at hx
    · decide +kernel

end Expr

end SyncCircuit
