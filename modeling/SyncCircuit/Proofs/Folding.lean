import Mathlib.Data.List.Forall2
import Mathlib.Data.Set.Insert
import SyncCircuit.Expr.Eval

/-!
Evaluation as a fold. Each node makes its result from those of its operands. What products and sums
make of theirs is a parameter here, so that the evaluation in use is one of several, and any two are
compared node by node.
-/

namespace SyncCircuit

namespace Expr

section related

variable {α β : Type} {R : α → β → Prop} {g : Algebra α} {g' : Algebra β} {nodes nodes' : List Node}

/-- At each of the nodes, related operands have related results. -/
structure Algebra.Related (R : α → β → Prop) (nodes : List Node) (g : Algebra α)
    (g' : Algebra β) : Prop where
  signal : ∀ x, .signal x ∈ nodes → R (g.signal x) (g'.signal x)
  and : ∀ a a' b b', R a a' → R b b' → R (g.and a b) (g'.and a' b')
  or : ∀ a a' b b', R a a' → R b b' → R (g.or a b) (g'.or a' b')
  not : ∀ a a', R a a' → R (g.not a) (g'.not a')
  call : ∀ f as as', .call f as.length ∈ nodes → List.Forall₂ R as as' →
    R (g.call f as) (g'.call f as')

theorem Algebra.Related.mono (h : Related R nodes g g') (hs : nodes' ⊆ nodes) :
    Related R nodes' g g' :=
  ⟨fun x hx => h.signal x (hs hx), h.and, h.or, h.not, fun f as as' hf => h.call f as as' (hs hf)⟩

theorem Algebra.Related.folds {e : Expr} (h : Related R e.nodes g g') :
    R (e.fold g) (e.fold g') := by
  induction e using induct with
  | signal x => exact h.signal x (by simp)
  | and a b iha ihb =>
    have ha := iha (h.mono (by simp))
    have hb := ihb (h.mono (by simp))
    exact h.and _ _ _ _ ha hb
  | or a b iha ihb =>
    have ha := iha (h.mono (by simp))
    have hb := ihb (h.mono (by simp))
    exact h.or _ _ _ _ ha hb
  | not a ih =>
    have ha := ih (h.mono (by simp))
    exact h.not _ _ ha
  | call f as ih =>
    simp only [Expr.fold, foldAll_eq_map]
    apply h.call
    · simp
    · rw [List.forall₂_map_left_iff, List.forall₂_map_right_iff, List.forall₂_same]
      intro a ha
      apply ih a ha
      apply h.mono
      intro n hn
      rw [nodes_call]
      exact List.mem_cons_of_mem _ (List.mem_flatMap.mpr ⟨a, ha, hn⟩)

end related

/-- The values of the results, or the first fault among them. -/
def inTurn : List (Except Fault Bool) → Except Fault (List Bool)
  | [] => .ok []
  | r :: rs => r.bind fun v => (inTurn rs).map (v :: ·)

theorem inTurn_eq_ok {rs : List (Except Fault Bool)} {values : List Bool} :
    inTurn rs = .ok values ↔ rs = values.map .ok := by
  induction rs generalizing values with
  | nil => cases values <;> simp [inTurn]
  | cons r rs ih =>
    cases r with
    | error f => cases values <;> simp [inTurn, Except.bind]
    | ok v =>
      have hcons : ∀ vs : List Bool, inTurn (.ok v :: rs) = .ok vs ↔
          ∃ ws, inTurn rs = .ok ws ∧ v :: ws = vs := by
        intro vs
        cases h : inTurn rs <;> simp [inTurn, Except.bind, Except.map, h]
      simp only [hcons, ih]
      cases values with
      | nil => simp
      | cons w ws =>
        simp only [List.cons.injEq, List.map_cons, Except.ok.injEq]
        constructor
        · rintro ⟨vs, hvs, rfl, rfl⟩
          exact ⟨rfl, hvs⟩
        · rintro ⟨rfl, hvs⟩
          exact ⟨ws, hvs, rfl, rfl⟩

theorem length_of_inTurn {rs : List (Except Fault Bool)} {values : List Bool}
    (h : inTurn rs = .ok values) : values.length = rs.length := by
  rw [inTurn_eq_ok.mp h, List.length_map]

structure Operators where
  and : Except Fault Bool → Except Fault Bool → Except Fault Bool
  or : Except Fault Bool → Except Fault Bool → Except Fault Bool

namespace Operators

/-- The second operand is left out if the first one decides. -/
def decidedBy (decisive : Bool) (a b : Except Fault Bool) : Except Fault Bool :=
  a.bind fun v => if v = decisive then .ok v else b

/-- Both operands are evaluated, and of two faults the first one counts. -/
def both (op : Bool → Bool → Bool) (a b : Except Fault Bool) : Except Fault Bool :=
  a.bind fun v => b.map (op v)

def short : Operators := ⟨decidedBy false, decidedBy true⟩

def full : Operators := ⟨both (· && ·), both (· || ·)⟩

def algebra (ops : Operators) (enter : Definition → List Bool → Except Fault Bool)
    (value : Name → Except Fault Bool) (function : Name → Except Fault Definition) :
    Algebra (Except Fault Bool) where
  signal := value
  and := ops.and
  or := ops.or
  not a := a.map (!·)
  call f as := (function f).bind fun d =>
    if d.arity = as.length then (inTurn as).bind (enter d)
    else .error (.arityMismatch f d.arity as.length)

def evalWith (ops : Operators) (enter : Definition → List Bool → Except Fault Bool)
    (env : Environment) (e : Expr) : Except Fault Bool :=
  e.fold (ops.algebra enter env.get env.definition)

section equations

variable (ops : Operators) (enter : Definition → List Bool → Except Fault Bool) (env : Environment)

theorem evalWith_signal (x : Name) : ops.evalWith enter env (.signal x) = env.get x := by
  simp only [evalWith, fold, algebra]

theorem evalWith_and (a b : Expr) : ops.evalWith enter env (.and a b) =
    ops.and (ops.evalWith enter env a) (ops.evalWith enter env b) := by
  simp only [evalWith, fold]
  rfl

theorem evalWith_or (a b : Expr) : ops.evalWith enter env (.or a b) =
    ops.or (ops.evalWith enter env a) (ops.evalWith enter env b) := by
  simp only [evalWith, fold]
  rfl

theorem evalWith_not (a : Expr) : ops.evalWith enter env (.not a) =
    (ops.evalWith enter env a).map (!·) := by
  simp only [evalWith, fold]
  rfl

theorem evalWith_call (f : Name) (as : List Expr) : ops.evalWith enter env (.call f as) =
    (env.definition f).bind fun d =>
      if d.arity = as.length then (inTurn (as.map (ops.evalWith enter env))).bind (enter d)
      else .error (.arityMismatch f d.arity as.length) := by
  simp only [evalWith, fold, foldAll_eq_map]
  simp only [algebra, List.length_map]
  rfl

end equations

end Operators

section evalWith

variable {enter : Definition → List Bool → Except Fault Bool} {env : Environment}

theorem evalAllWith_eq_inTurn (as : List Expr) :
    evalAllWith enter env as = inTurn (as.map (evalWith enter env)) := by
  induction as with
  | nil => simp only [evalAllWith, List.map_nil, inTurn]
  | cons a as ih =>
    simp only [evalAllWith, List.map_cons, inTurn, ← ih]
    cases evalWith enter env a with
    | error f => rfl
    | ok v => cases evalAllWith enter env as <;> rfl

theorem evalWith_short (e : Expr) :
    Operators.short.evalWith enter env e = evalWith enter env e := by
  induction e using induct with
  | signal x => simp only [Operators.evalWith_signal, evalWith]
  | and a b iha ihb =>
    simp only [Operators.evalWith_and, iha, ihb, evalWith]
    rcases evalWith enter env a with f | _ | _ <;> rfl
  | or a b iha ihb =>
    simp only [Operators.evalWith_or, iha, ihb, evalWith]
    rcases evalWith enter env a with f | _ | _ <;> rfl
  | not a ih => simp only [Operators.evalWith_not, ih, evalWith]
  | call f as ih =>
    simp only [Operators.evalWith_call, List.map_congr_left ih, evalWith, evalAllWith_eq_inTurn]
    cases env.definition f with
    | error g => rfl
    | ok d =>
      simp only [Except.bind]
      split
      · cases inTurn (as.map (evalWith enter env)) <;> rfl
      · rfl

end evalWith

section persistsUnless

variable {α β : Type} {lost : Set Fault} {r r' : Except Fault α}

/-- The second result is the first one, unless the first is a fault that may be lost. -/
def PersistsUnless (lost : Set Fault) (r r' : Except Fault α) : Prop :=
  (∃ f ∈ lost, r = .error f) ∨ r' = r

namespace PersistsUnless

theorem refl (r : Except Fault α) : PersistsUnless lost r r := Or.inr rfl

theorem bind {k k' : α → Except Fault β} (h : PersistsUnless lost r r')
    (hk : ∀ v, r = .ok v → PersistsUnless lost (k v) (k' v)) :
    PersistsUnless lost (r.bind k) (r'.bind k') := by
  rcases h with ⟨f, hf, rfl⟩ | rfl
  · exact Or.inl ⟨f, hf, rfl⟩
  · cases r' with
    | error f => exact refl _
    | ok v => exact hk v rfl

theorem map (k : α → β) (h : PersistsUnless lost r r') :
    PersistsUnless lost (r.map k) (r'.map k) := by
  rcases h with ⟨f, hf, rfl⟩ | rfl
  · exact Or.inl ⟨f, hf, rfl⟩
  · exact refl _

theorem inTurn {rs rs' : List (Except Fault Bool)}
    (h : List.Forall₂ (PersistsUnless lost) rs rs') :
    PersistsUnless lost (inTurn rs) (inTurn rs') := by
  induction h with
  | nil => exact refl _
  | cons hr _ ih => exact hr.bind fun v _ => ih.map (v :: ·)

theorem empty_iff : PersistsUnless ∅ r r' ↔ r' = r := by
  simp [PersistsUnless]

theorem univ_iff : PersistsUnless Set.univ r r' ↔ ∀ v, r = .ok v → r' = .ok v := by
  unfold PersistsUnless
  cases r with
  | error f => simp
  | ok v => simp

end PersistsUnless

end persistsUnless

namespace Operators

variable {lost : Set Fault} {ops ops' : Operators}

/-- What both operands keep, the whole keeps. -/
structure Keeps (lost : Set Fault) (ops ops' : Operators) : Prop where
  and : ∀ a a' b b', PersistsUnless lost a a' → PersistsUnless lost b b' →
    PersistsUnless lost (ops.and a b) (ops'.and a' b')
  or : ∀ a a' b b', PersistsUnless lost a a' → PersistsUnless lost b b' →
    PersistsUnless lost (ops.or a b) (ops'.or a' b')

theorem decidedBy_keeps (decisive : Bool) {a a' b b' : Except Fault Bool}
    (ha : PersistsUnless lost a a') (hb : PersistsUnless lost b b') :
    PersistsUnless lost (decidedBy decisive a b) (decidedBy decisive a' b') := by
  refine ha.bind fun v _ => ?_
  split
  · exact .refl _
  · exact hb

theorem short_keeps : Keeps lost short short :=
  ⟨fun _ _ _ _ ha hb => decidedBy_keeps false ha hb,
    fun _ _ _ _ ha hb => decidedBy_keeps true ha hb⟩

section algebra

variable {enter enter' : Definition → List Bool → Except Fault Bool}
  {value value' : Name → Except Fault Bool} {function function' : Name → Except Fault Definition}
  {nodes : List Node}

theorem Keeps.algebra (h : Keeps lost ops ops')
    (hs : ∀ x, .signal x ∈ nodes → PersistsUnless lost (value x) (value' x))
    (hf : ∀ g n, .call g n ∈ nodes → function g = function' g)
    (he : ∀ g n, .call g n ∈ nodes → ∀ d, function g = .ok d → ∀ values : List Bool,
      values.length = d.arity → PersistsUnless lost (enter d values) (enter' d values)) :
    Algebra.Related (PersistsUnless lost) nodes (ops.algebra enter value function)
      (ops'.algebra enter' value' function') where
  signal := hs
  and := h.and
  or := h.or
  not _ _ ha := ha.map _
  call g as as' hg has := by
    have hlen := has.length_eq
    simp only [Operators.algebra, ← hf g _ hg, ← hlen]
    refine PersistsUnless.bind (.refl _) fun d hd => ?_
    split
    · next harity =>
      refine (PersistsUnless.inTurn has).bind fun values hv => ?_
      exact he g _ hg d hd values ((length_of_inTurn hv).trans harity.symm)
    · exact .refl _

end algebra

end Operators

end Expr

namespace Expr.Operators

variable {lost : Set Fault} {ops ops' : Operators} {ds : Definitions} {n m : ℕ}

def enter (ops : Operators) (ds : Definitions) : ℕ → Definition → List Bool → Except Fault Bool
  | 0, _, _ => .error .endlessCall
  | n + 1, d, values => ops.evalWith (ops.enter ds n) (d.scope (.empty ds) values) d.body

def evalWithin (ops : Operators) (n : ℕ) (env : Environment) (e : Expr) : Except Fault Bool :=
  ops.evalWith (ops.enter env.definitions n) env e

theorem enter_short (ds : Definitions) (n : ℕ) : short.enter ds n = ds.enter n := by
  induction n with
  | zero => rfl
  | succ n ih =>
    funext d values
    unfold enter
    rw [ih, evalWith_short]
    rfl

theorem evalWithin_short (n : ℕ) (env : Environment) (e : Expr) :
    short.evalWithin n env e = e.evalWithin n env := by
  unfold evalWithin
  rw [enter_short, evalWith_short]
  rfl

theorem Keeps.evalWith {enter enter' : Definition → List Bool → Except Fault Bool}
    (h : Keeps lost ops ops')
    (he : ∀ d values, PersistsUnless lost (enter d values) (enter' d values))
    (env : Environment) (e : Expr) :
    PersistsUnless lost (ops.evalWith enter env e) (ops'.evalWith enter' env e) :=
  (h.algebra (fun _ _ => .refl _) (fun _ _ _ => rfl)
    fun _ _ _ d _ values _ => he d values).folds

theorem Keeps.enter (h : Keeps lost ops ops') (ds : Definitions) (n : ℕ) (d : Definition)
    (values : List Bool) : PersistsUnless lost (ops.enter ds n d values)
      (ops'.enter ds n d values) := by
  induction n generalizing d values with
  | zero => exact .refl _
  | succ n ih => exact h.evalWith ih _ d.body

/-- More room changes nothing but that evaluation is cut off. -/
theorem Keeps.enter_le (h : Keeps {.endlessCall} ops ops) (hm : n ≤ m) (d : Definition)
    (values : List Bool) : PersistsUnless {.endlessCall} (ops.enter ds n d values)
      (ops.enter ds m d values) := by
  induction n generalizing m d values with
  | zero => exact Or.inl ⟨_, rfl, rfl⟩
  | succ n ih =>
    obtain ⟨m, rfl⟩ : ∃ k, m = k + 1 := ⟨m - 1, by omega⟩
    exact h.evalWith (ih (by omega)) _ d.body

end Expr.Operators

end SyncCircuit
