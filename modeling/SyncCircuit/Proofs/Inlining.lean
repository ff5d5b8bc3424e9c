import SyncCircuit.Proofs.Nesting

/-!
A call and the body of the function with the arguments written in place of the parameters. A call
evaluates every argument once and hides the signals of the caller from the body. The body written
out evaluates an argument where it reads the parameter, and sees those signals. The two can differ
only where the call has a fault.
-/

namespace SyncCircuit

open SyncCircuit.Expr (PersistsUnless inTurn)

namespace Definition

/-- What a parameter stands for: of two parameters with one name, the later one counts. -/
def argument? {α : Type} (d : Definition) (as : List α) (x : Name) : Option α :=
  ((d.parameters.zip as).reverse.find? (·.1 = x)).map Prod.snd

theorem argument?_map {α β : Type} (d : Definition) (k : α → β) (as : List α) (x : Name) :
    d.argument? (as.map k) x = (d.argument? as x).map k := by
  unfold argument?
  rw [List.zip_map_right, ← List.map_reverse, List.find?_map, Option.map_map, Option.map_map]
  rfl

theorem exists_argument? {α : Type} {d : Definition} {as : List α} (h : as.length = d.arity)
    {x : Name} (hx : x ∈ d.parameters) : ∃ a, d.argument? as x = some a := by
  have hle : d.parameters.length ≤ as.length := by
    rw [h]
    exact le_rfl
  rw [← List.map_fst_zip hle] at hx
  obtain ⟨p, hp, rfl⟩ := List.mem_map.mp hx
  rw [← Option.isSome_iff_exists]
  simp only [argument?, Option.isSome_map, List.find?_isSome, List.mem_reverse]
  exact ⟨p, hp, by simp⟩

end Definition

theorem Definition.scope_values (d : Definition) (env : Environment) (values : List Bool)
    (x : Name) : (d.scope env values).values[x]? = d.argument? values x := by
  unfold scope Environment.child argument?
  rw [Environment.bindAll_values, Environment.empty_values, Option.or_none]

namespace Expr

def substitute (arg : Name → Option Expr) : Expr → Expr :=
  fold {
    signal := fun x => (arg x).getD (signal x)
    and := and
    or := or
    not := not
    call := call }

theorem fold_substitute {α : Type} (g : Algebra α) (arg : Name → Option Expr) (e : Expr) :
    (e.substitute arg).fold g =
      e.fold { g with signal := fun x => ((arg x).getD (signal x)).fold g } := by
  unfold substitute
  induction e using induct with
  | signal x => simp only [fold]
  | and a b iha ihb => simp only [fold, iha, ihb]
  | or a b iha ihb => simp only [fold, iha, ihb]
  | not a ih => simp only [fold, ih]
  | call f as ih =>
    simp only [fold, foldAll_eq_map, List.map_map]
    congr 1
    exact List.map_congr_left ih

section evalWith

variable {enter : Definition → List Bool → Except Fault Bool} {env env' : Environment}

theorem evalWith_substitute {lost : Set Fault} (arg : Name → Option Expr) (e : Expr)
    (hd : env.definitions = env'.definitions)
    (hs : ∀ x, Node.signal x ∈ e.nodes →
      PersistsUnless lost (env.get x) (evalWith enter env' ((arg x).getD (signal x)))) :
    PersistsUnless lost (evalWith enter env e) (evalWith enter env' (e.substitute arg)) := by
  have hdef : env.definition = env'.definition := by
    funext f
    simp only [Environment.definition, hd]
  simp only [← evalWith_short] at hs ⊢
  unfold Operators.evalWith
  rw [fold_substitute]
  exact (Operators.short_keeps.algebra hs (fun g _ _ => congrFun hdef g)
    fun _ _ _ _ _ _ _ => .refl _).folds

end evalWith

end Expr

def Definition.inlined (d : Definition) (as : List Expr) : Expr :=
  d.body.substitute (d.argument? as)

namespace Expr

variable {env : Environment} {f : Name} {d : Definition} {as : List Expr} {values : List Bool}

theorem eval_inlined_of_values {lost : Set Fault} (hv : as.map (eval env) = values.map .ok)
    (hs : ∀ x, Node.signal x ∈ d.body.nodes → d.argument? as x = none → .unboundSignal x ∈ lost) :
    PersistsUnless lost (env.definitions.apply d values) ((d.inlined as).eval env) := by
  have hscope : (d.scope (.empty env.definitions) values).definitions = env.definitions :=
    d.scope_definitions _ _
  have harg : ∀ x, (d.argument? as x).map (eval env) = (d.argument? values x).map .ok := by
    intro x
    rw [← d.argument?_map, hv, d.argument?_map]
  unfold Definitions.apply Definition.inlined
  rw [← evalWith_apply, ← evalWith_apply, hscope]
  apply evalWith_substitute _ _ hscope
  intro x hx
  rw [evalWith_apply]
  cases ha : d.argument? as x with
  | none =>
    have hnone : d.argument? values x = none := by simpa [ha] using (harg x).symm
    rw [← d.scope_values (.empty env.definitions)] at hnone
    exact Or.inl ⟨_, hs x hx ha, Environment.get_eq_error.mpr ⟨hnone, rfl⟩⟩
  | some a =>
    obtain ⟨v, hvalue, heval⟩ : ∃ v, d.argument? values x = some v ∧ Except.ok v = a.eval env := by
      simpa [ha, eq_comm] using harg x
    rw [← d.scope_values (.empty env.definitions)] at hvalue
    exact Or.inr (heval.symm.trans (Environment.get_eq_ok.mpr hvalue).symm)

/-- A call that has a value has that of the body with the arguments written in. If the arguments
have values and the body reads nothing but parameters, the two agree in their faults as well, and
neither comes to an end unless both do. -/
theorem eval_inlined (hd : env.definitions.find? f = some d) (ha : d.arity = as.length) :
    (∀ v, (call f as).eval env = .ok v → (d.inlined as).eval env = .ok v) ∧
    ((∀ a ∈ as, ∃ v, a.eval env = .ok v) → (∀ x ∈ d.body.signals, x ∈ d.parameters) →
      (call f as).eval env = (d.inlined as).eval env ∧
        ((call f as).Endless env ↔ (d.inlined as).Endless env)) := by
  have hcall : (call f as).eval env =
      (inTurn (as.map (eval env))).bind (env.definitions.apply d) := by
    rw [eval_call, Environment.definition_eq_ok hd]
    simp only [Except.bind, if_pos ha]
  constructor
  · intro v hv
    rw [hcall] at hv
    cases hvs : inTurn (as.map (eval env)) with
    | error g => simp [hvs, Except.bind] at hv
    | ok values =>
      have hbody : env.definitions.apply d values = .ok v := by simpa [hvs, Except.bind] using hv
      have hkept : PersistsUnless Set.univ (env.definitions.apply d values)
          ((d.inlined as).eval env) :=
        eval_inlined_of_values (inTurn_eq_ok.mp hvs) fun _ _ _ => Set.mem_univ _
      exact PersistsUnless.univ_iff.mp hkept v hbody
  · intro has hs
    have hok : ∀ a ∈ as, ∃ v, a.evalWith env.definitions.apply env = .ok v := by
      intro a ha
      rw [evalWith_apply]
      exact has a ha
    obtain ⟨values, hvs, _⟩ := evalAllWith_ok hok
    rw [evalAllWith_eq_inTurn, List.map_congr_left fun a _ => evalWith_apply env a,
      inTurn_eq_ok] at hvs
    have hall : ∀ x, Node.signal x ∈ d.body.nodes → d.argument? as x = none →
        Fault.unboundSignal x ∈ (∅ : Set Fault) := by
      intro x hx hnone
      obtain ⟨a, hsome⟩ := Definition.exists_argument? ha.symm (hs x (mem_signals.mpr hx))
      simp [hsome] at hnone
    have heq : (call f as).eval env = (d.inlined as).eval env := by
      rw [hcall, inTurn_eq_ok.mpr hvs]
      exact (PersistsUnless.empty_iff.mp (eval_inlined_of_values hvs hall)).symm
    refine ⟨heq, ?_⟩
    rw [← eval_eq_endlessCall_iff, ← eval_eq_endlessCall_iff, heq]

/-- The first parameter is set, or after it the others in turn. Its arguments change places from
call to call, and the first one never counts. -/
def anySet : Definition :=
  ⟨"any", ["X", "Y", "X"],
    .or (.signal "X") (.call "any" [.signal "Y", .signal "X", .signal "Y"])⟩

def anySetScope : Environment :=
  (Environment.empty (.ofList [anySet])).bindAll [("A", false), ("B", true)]

theorem eval_inlined_anySet :
    (anySet.inlined [signal "B", signal "B", signal "A"]).eval anySetScope = .ok true ∧
    (anySet.inlined [signal "B", signal "A", signal "A"]).Endless anySetScope := by
  have hd : anySetScope.definitions.find? "any" = some anySet := by decide +kernel
  constructor
  · have hcall : (call "any" [signal "B", signal "B", signal "A"]).eval anySetScope = .ok true := by
      decide +kernel
    exact (eval_inlined hd rfl).1 true hcall
  · have hcall : (call "any" [signal "B", signal "A", signal "A"]).eval anySetScope =
        .error .endlessCall := by
      decide +kernel
    have has : ∀ a ∈ [signal "B", signal "A", signal "A"], ∃ v, a.eval anySetScope = .ok v := by
      intro a ha
      simp only [List.mem_cons, List.not_mem_nil, or_false] at ha
      rcases ha with rfl | rfl | rfl
      · exact ⟨true, by decide +kernel⟩
      · exact ⟨false, by decide +kernel⟩
      · exact ⟨false, by decide +kernel⟩
    have hs : ∀ x ∈ anySet.body.signals, x ∈ anySet.parameters := by decide +kernel
    exact ((eval_inlined hd rfl).2 has hs).2.mp (eval_eq_endlessCall_iff.mp hcall)

end Expr

end SyncCircuit
