import SyncCircuit.Proofs.Environment
import SyncCircuit.Proofs.Folding

/-!
Evaluation reads no signal but those that the expression names outside of the definitions it calls,
and its faults are about signals and functions only.
-/

namespace SyncCircuit

namespace Expr

theorem mem_signals {e : Expr} {x : Name} : x ∈ e.signals ↔ Node.signal x ∈ e.nodes := by
  unfold signals
  rw [Std.ExtTreeSet.mem_toList, Std.ExtTreeSet.mem_ofList, List.contains_iff_mem,
    List.mem_filterMap]
  constructor
  · rintro ⟨n, hn, hx⟩
    cases n <;> simp_all [Node.signal?]
  · intro h
    exact ⟨_, h, rfl⟩

def reads (e : Expr) : Set Name := {x | x ∈ e.signals}

/-- The second result is the first one, unless the first was cut off. -/
def Persists {α : Type} (r r' : Except Fault α) : Prop := r = .error .endlessCall ∨ r' = r

namespace Persists

variable {α : Type} {r r' : Except Fault α}

theorem eq_of_ne (h : Persists r r') (hne : r ≠ .error .endlessCall) : r' = r :=
  h.resolve_left hne

end Persists

theorem persistsUnless_endlessCall {α : Type} {r r' : Except Fault α} :
    PersistsUnless {.endlessCall} r r' ↔ Persists r r' := by
  simp [PersistsUnless, Persists]

/-- The signals and functions that the nodes name are the same in both environments, and what a
call of one of these functions gives in the first persists in the second. -/
structure Alike (nodes : List Node) (enter enter' : Definition → List Bool → Except Fault Bool)
    (env env' : Environment) : Prop where
  signals : ∀ x, .signal x ∈ nodes → env.values[x]? = env'.values[x]?
  functions : ∀ g n, .call g n ∈ nodes → env.definition g = env'.definition g
  entered : ∀ g n, .call g n ∈ nodes → ∀ d, env.definition g = .ok d → ∀ values : List Bool,
    values.length = d.arity → Persists (enter d values) (enter' d values)

section evalWith

variable {enter enter' : Definition → List Bool → Except Fault Bool} {env env' : Environment}

theorem evalWith_persistsUnless {lost : Set Fault} (e : Expr)
    (hs : ∀ x, Node.signal x ∈ e.nodes → PersistsUnless lost (env.get x) (env'.get x))
    (hf : ∀ g n, Node.call g n ∈ e.nodes → env.definition g = env'.definition g)
    (he : ∀ g n, Node.call g n ∈ e.nodes → ∀ d, env.definition g = .ok d → ∀ values : List Bool,
      values.length = d.arity → PersistsUnless lost (enter d values) (enter' d values)) :
    PersistsUnless lost (evalWith enter env e) (evalWith enter' env' e) := by
  rw [← evalWith_short, ← evalWith_short]
  exact (Operators.short_keeps.algebra hs hf he).folds

/-- Each operand that is evaluated either was cut off, and then so is the whole, or gives the same
in both environments. -/
theorem evalWith_persists (e : Expr) (h : Alike e.nodes enter enter' env env') :
    Persists (evalWith enter env e) (evalWith enter' env' e) := by
  rw [← persistsUnless_endlessCall]
  refine evalWith_persistsUnless e (fun x hx => ?_) h.functions fun g n hg d hd values hv => ?_
  · exact Or.inr (Environment.get_congr (h.signals x hx).symm)
  · exact persistsUnless_endlessCall.mpr (h.entered g n hg d hd values hv)

theorem evalWith_eq (e : Expr)
    (hs : ∀ x, Node.signal x ∈ e.nodes → env.values[x]? = env'.values[x]?)
    (hf : ∀ g n, Node.call g n ∈ e.nodes → env.definition g = env'.definition g)
    (he : ∀ g n, Node.call g n ∈ e.nodes → ∀ d, env.definition g = .ok d → ∀ values : List Bool,
      values.length = d.arity → enter d values = enter' d values) :
    evalWith enter env e = evalWith enter' env' e := by
  symm
  rw [← PersistsUnless.empty_iff]
  refine evalWith_persistsUnless e (fun x hx => ?_) hf fun g n hg d hd values hv => ?_
  · exact Or.inr (Environment.get_congr (hs x hx).symm)
  · exact Or.inr (he g n hg d hd values hv).symm

theorem evalWith_congr (e : Expr) (h : Environment.AgreeOn e.reads env env') :
    evalWith enter env e = evalWith enter env' e := by
  refine evalWith_eq e (fun x hx => h.values x (mem_signals.mpr hx)) (fun g n _ => ?_)
    fun _ _ _ _ _ _ _ => rfl
  simp only [Environment.definition, h.definitions]

end evalWith

theorem eval_congr (e : Expr) {env env' : Environment}
    (h : Environment.AgreeOn e.reads env env') : e.eval env = e.eval env' := by
  simp only [eval, evalWithin, h.definitions]
  exact evalWith_congr e h

end Expr

def Fault.OfEvaluation : Fault → Prop
  | .unboundSignal _ | .undefinedFunction _ | .arityMismatch _ _ _ | .endlessCall => True
  | _ => False

theorem Environment.get_fault {env : Environment} {x : Name} {f : Fault}
    (h : env.get x = .error f) : f.OfEvaluation := by
  rw [(get_eq_error.mp h).2]
  trivial

namespace Expr

section evalWith

variable {enter : Definition → List Bool → Except Fault Bool} {env : Environment}

theorem evalAllWith_fault {as : List Expr}
    (h : ∀ a ∈ as, ∀ f, evalWith enter env a = .error f → f.OfEvaluation) {f : Fault}
    (hf : evalAllWith enter env as = .error f) : f.OfEvaluation := by
  induction as with
  | nil => simp [evalAllWith] at hf
  | cons a as ih =>
    simp only [evalAllWith] at hf
    split at hf
    · next e he =>
      cases hf
      exact h a List.mem_cons_self _ he
    · split at hf
      · next e he =>
        cases hf
        exact ih (fun b hb => h b (List.mem_cons_of_mem a hb)) he
      · cases hf

theorem evalWith_fault (henter : ∀ d values f, enter d values = .error f → f.OfEvaluation)
    (e : Expr) {f : Fault} (hf : evalWith enter env e = .error f) : f.OfEvaluation := by
  induction e using induct generalizing f with
  | signal x =>
    simp only [evalWith] at hf
    exact Environment.get_fault hf
  | and a b iha ihb =>
    simp only [evalWith] at hf
    split at hf
    · exact ihb hf
    · exact iha hf
  | or a b iha ihb =>
    simp only [evalWith] at hf
    split at hf
    · exact ihb hf
    · exact iha hf
  | not a ih =>
    simp only [evalWith] at hf
    cases ha : evalWith enter env a with
    | ok b => simp [ha, Except.map] at hf
    | error g =>
      simp only [ha, Except.map, Except.error.injEq] at hf
      exact hf ▸ ih ha
  | call g as ih =>
    simp only [evalWith] at hf
    split at hf
    · next e he =>
      cases hf
      unfold Environment.definition at he
      split at he
      · cases he
      · cases he
        trivial
    · split at hf
      · split at hf
        · exact henter _ _ _ hf
        · next e he =>
          cases hf
          exact evalAllWith_fault (fun a ha _ h => ih a ha h) he
      · cases hf
        trivial

end evalWith

end Expr

theorem Definitions.enter_fault (ds : Definitions) (depth : ℕ) (d : Definition)
    (values : List Bool) (f : Fault) (hf : ds.enter depth d values = .error f) :
    f.OfEvaluation := by
  induction depth generalizing d values f with
  | zero =>
    cases hf
    trivial
  | succ depth ih => exact Expr.evalWith_fault ih _ hf

theorem Expr.eval_fault {env : Environment} {e : Expr} {f : Fault} (hf : e.eval env = .error f) :
    f.OfEvaluation :=
  evalWith_fault (env.definitions.enter_fault _) e hf

end SyncCircuit
