import Mathlib.Data.Set.Insert
import SyncCircuit.Environment

/-!
What binding does to the values of an environment, and when two environments agree on some names.
-/

namespace SyncCircuit

namespace Environment

theorem get_eq_ok {env : Environment} {x : Name} {b : Bool} :
    env.get x = .ok b ↔ env.values[x]? = some b := by
  unfold get
  cases env.values[x]? <;> simp

theorem get_eq_error {env : Environment} {x : Name} {f : Fault} :
    env.get x = .error f ↔ env.values[x]? = none ∧ f = .unboundSignal x := by
  unfold get
  cases env.values[x]? <;> simp [eq_comm]

theorem get_congr {env env' : Environment} {x : Name} (h : env.values[x]? = env'.values[x]?) :
    env.get x = env'.get x := by
  simp only [get, h]

theorem binds_iff {env : Environment} {x : Name} :
    env.binds x = true ↔ ∃ b, env.values[x]? = some b := by
  rw [binds, Std.ExtTreeMap.contains_eq_isSome_getElem?, Option.isSome_iff_exists]

theorem binds_eq_isSome (env : Environment) (x : Name) :
    env.binds x = env.values[x]?.isSome :=
  Std.ExtTreeMap.contains_eq_isSome_getElem?

@[simp] theorem empty_values (ds : Definitions) (x : Name) : (empty ds).values[x]? = none := by
  simp [empty]

@[simp] theorem empty_definitions (ds : Definitions) : (empty ds).definitions = ds := rfl

theorem bind_values (env : Environment) (x : Name) (b : Bool) (y : Name) :
    (env.bind x b).values[y]? = if x = y then some b else env.values[y]? := by
  simp [bind, Std.ExtTreeMap.getElem?_insert]

@[simp] theorem bind_values_self (env : Environment) (x : Name) (b : Bool) :
    (env.bind x b).values[x]? = some b := by
  simp [bind_values]

theorem bind_values_of_ne {x y : Name} (h : x ≠ y) (env : Environment) (b : Bool) :
    (env.bind x b).values[y]? = env.values[y]? := by
  simp [bind_values, h]

structure AgreeOn (S : Set Name) (env env' : Environment) : Prop where
  definitions : env.definitions = env'.definitions
  values : ∀ x ∈ S, env.values[x]? = env'.values[x]?

theorem AgreeOn.mono {S T : Set Name} {env env' : Environment} (h : AgreeOn S env env')
    (hs : T ⊆ S) : AgreeOn T env env' :=
  ⟨h.definitions, fun x hx => h.values x (hs hx)⟩

theorem AgreeOn.bind {S : Set Name} {env env' : Environment} (h : AgreeOn S env env') (x : Name)
    (b : Bool) : AgreeOn (insert x S) (env.bind x b) (env'.bind x b) := by
  refine ⟨h.definitions, fun y hy => ?_⟩
  rw [bind_values, bind_values]
  by_cases hx : x = y
  · simp [hx]
  · simp only [if_neg hx]
    exact h.values y ((Set.mem_insert_iff.mp hy).resolve_left (Ne.symm hx))

end Environment

end SyncCircuit
