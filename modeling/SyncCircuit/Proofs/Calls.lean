import Mathlib.Data.Finset.Card
import Mathlib.Logic.Relation
import SyncCircuit.Program.Basic
import SyncCircuit.Proofs.Evaluation

/-!
Calls of defined functions. If no function comes to call itself, calls nest no deeper than there are
functions, so that evaluation is not cut off and succeeds where names and arities fit.
-/

namespace SyncCircuit

namespace Definitions

def Indexed (ds : Definitions) : Prop :=
  ∀ (f : Name) (i : ℕ), ds.position[f]? = some i → i < ds.list.length

theorem find?_add {ds : Definitions} (h : ds.Indexed) (d : Definition) (f : Name) :
    (ds.add d).find? f = if d.name = f then some d else ds.find? f := by
  simp only [find?, add, Std.ExtTreeMap.getElem?_insert, Std.LawfulEqCmp.compare_eq_iff_eq]
  split
  · simp
  · cases hi : ds.position[f]? with
    | none => rfl
    | some i => simp [List.getElem?_append_left (h f i hi)]

theorem indexed_add {ds : Definitions} (h : ds.Indexed) (d : Definition) : (ds.add d).Indexed := by
  intro f i hi
  simp only [add, Std.ExtTreeMap.getElem?_insert, Std.LawfulEqCmp.compare_eq_iff_eq] at hi
  simp only [add, List.length_append, List.length_singleton]
  split at hi
  · obtain rfl := Option.some.inj hi
    omega
  · have := h f i hi
    omega

theorem ofList_concat (list : List Definition) (d : Definition) :
    ofList (list ++ [d]) = (ofList list).add d := by
  simp [ofList]

theorem indexed_ofList (list : List Definition) : (ofList list).Indexed := by
  induction list using List.reverseRecOn with
  | nil =>
    intro f i hi
    simp [ofList, empty] at hi
  | append_singleton list d ih =>
    rw [ofList_concat]
    exact indexed_add ih d

/-- Of two definitions of one name, the later one counts. -/
theorem find?_ofList (list : List Definition) (f : Name) :
    (ofList list).find? f = list.reverse.find? (·.name = f) := by
  induction list using List.reverseRecOn with
  | nil => simp [ofList, empty, find?]
  | append_singleton list d ih =>
    rw [ofList_concat, find?_add (indexed_ofList list), ih, List.reverse_append,
      List.reverse_singleton, List.singleton_append, List.find?_cons]
    by_cases hd : d.name = f <;> simp [hd]

def names (ds : Definitions) : List Name := ds.position.toList.map Prod.fst

theorem mem_names_of_find? {ds : Definitions} {f : Name} {d : Definition}
    (h : ds.find? f = some d) : f ∈ ds.names := by
  obtain ⟨i, hi, _⟩ := Option.bind_eq_some_iff.mp h
  exact List.mem_map.mpr ⟨(f, i), Std.ExtTreeMap.mem_toList_iff_getElem?_eq_some.mpr hi, rfl⟩

theorem length_names_le_depth (ds : Definitions) : ds.names.length ≤ ds.depth := by
  unfold names depth
  rw [List.length_map]
  induction ds.position.toList with
  | nil => exact Nat.zero_le _
  | cons p ps ih =>
    obtain ⟨f, i⟩ := p
    have hpos : 0 < Nat.pow 2 (((ds.find? f).map Definition.arity).getD 0) :=
      Nat.pow_pos Nat.two_pos
    rw [List.foldr_cons, List.length_cons, Nat.add_comm]
    exact Nat.add_le_add hpos ih

end Definitions

section rank

open Relation (TransGen)
open scoped Classical

variable {r : Name → Name → Prop} {names : List Name} {f g : Name}

/-- How many of the names can be reached from a name. -/
noncomputable def rank (r : Name → Name → Prop) (names : List Name) (f : Name) : ℕ :=
  (names.toFinset.filter (TransGen r f)).card

theorem rank_lt_rank (hg : g ∈ names) (h : r f g) (hno : ¬ TransGen r g g) :
    rank r names g < rank r names f := by
  refine Finset.card_lt_card (Finset.ssubset_iff_of_subset ?_ |>.mpr ⟨g, ?_, ?_⟩)
  · exact Finset.monotone_filter_right _ fun x _ hx => .head h hx
  · exact Finset.mem_filter.mpr ⟨List.mem_toFinset.mpr hg, .single h⟩
  · exact fun hm => hno (Finset.mem_filter.mp hm).2

theorem rank_lt_length (hf : f ∈ names) (hno : ¬ TransGen r f f) :
    rank r names f < names.length := by
  refine (Finset.card_lt_card ?_).trans_le (List.toFinset_card_le names)
  refine Finset.filter_ssubset.mpr ⟨f, List.mem_toFinset.mpr hf, hno⟩

end rank

def Calls (lookup : Name → Option Definition) (f g : Name) : Prop :=
  ∃ d n, lookup f = some d ∧ Expr.Node.call g n ∈ d.body.nodes

/-- The functions that are called by updates, or by bodies of functions so called. -/
inductive Uses (lookup : Name → Option Definition) (us : List Update) : Name → Prop where
  | update {u : Update} {f : Name} {n : ℕ} : u ∈ us → Expr.Node.call f n ∈ u.value.nodes →
      Uses lookup us f
  | body {f g : Name} : Uses lookup us f → Calls lookup f g → Uses lookup us g

/-- Whatever an expression calls is a function, and called with as many arguments as it has
parameters. -/
def Expr.CallsFit (lookup : Name → Option Definition) (e : Expr) : Prop :=
  ∀ g n, Node.call g n ∈ e.nodes → (lookup g).map Definition.arity = some n

/-- No update meets an obstacle in the functions it uses. -/
structure Callable (lookup : Name → Option Definition) (us : List Update) : Prop where
  updates : ∀ u ∈ us, u.value.CallsFit lookup
  bodies : ∀ f, Uses lookup us f → ∀ d, lookup f = some d → d.body.CallsFit lookup
  parameters : ∀ f, Uses lookup us f → ∀ d, lookup f = some d →
    ∀ x ∈ d.body.signals, x ∈ d.parameters
  acyclic : ∀ f, Uses lookup us f → ¬ Relation.TransGen (Calls lookup) f f

namespace Environment

theorem bindAll_definitions (env : Environment) (bindings : List (Name × Bool)) :
    (env.bindAll bindings).definitions = env.definitions := by
  induction bindings generalizing env with
  | nil => rfl
  | cons b bindings ih => exact ih (env.bind b.1 b.2)

theorem bindAll_values (env : Environment) (bindings : List (Name × Bool)) (x : Name) :
    (env.bindAll bindings).values[x]? =
      ((bindings.reverse.find? (·.1 = x)).map Prod.snd).or env.values[x]? := by
  induction bindings generalizing env with
  | nil => rfl
  | cons b bindings ih =>
    have hbind : (env.bindAll (b :: bindings)) = (env.bind b.1 b.2).bindAll bindings := rfl
    rw [hbind, ih, bind_values, List.reverse_cons, List.find?_append, Option.map_or,
      Option.or_assoc]
    congr 1
    by_cases hx : b.1 = x <;> simp [hx]

theorem bindAll_binds {env : Environment} {bindings : List (Name × Bool)} {x : Name}
    (h : env.binds x ∨ x ∈ bindings.map Prod.fst) : (env.bindAll bindings).binds x := by
  rw [binds_eq_isSome, bindAll_values, Option.isSome_or, Bool.or_eq_true, Option.isSome_map,
    List.find?_isSome, ← binds_eq_isSome]
  rcases h with h | h
  · exact Or.inr h
  · obtain ⟨b, hb, rfl⟩ := List.mem_map.mp h
    exact Or.inl ⟨b, List.mem_reverse.mpr hb, by simp⟩

theorem definition_eq_ok {env : Environment} {f : Name} {d : Definition}
    (h : env.definitions.find? f = some d) : env.definition f = .ok d := by
  simp [definition, h]

end Environment

theorem Definition.scope_definitions (d : Definition) (env : Environment) (values : List Bool) :
    (d.scope env values).definitions = env.definitions :=
  env.child.bindAll_definitions _

namespace Expr

variable {enter : Definition → List Bool → Except Fault Bool} {env : Environment}

theorem evalAllWith_ok {as : List Expr} (h : ∀ a ∈ as, ∃ b, evalWith enter env a = .ok b) :
    ∃ values, evalAllWith enter env as = .ok values ∧ values.length = as.length := by
  induction as with
  | nil => exact ⟨[], by simp [evalAllWith], rfl⟩
  | cons a as ih =>
    obtain ⟨⟨b, hb⟩, has⟩ := List.forall_mem_cons.mp h
    obtain ⟨values, hv, hl⟩ := ih has
    exact ⟨b :: values, by simp [evalAllWith, hb, hv], by simp [hl]⟩

theorem evalWith_ok (e : Expr) (hs : ∀ x, Node.signal x ∈ e.nodes → env.binds x)
    (hc : ∀ g n, Node.call g n ∈ e.nodes → ∃ d, env.definition g = .ok d ∧ d.arity = n ∧
      ∀ values : List Bool, values.length = n → ∃ b, enter d values = .ok b) :
    ∃ b, evalWith enter env e = .ok b := by
  induction e using induct with
  | signal x =>
    obtain ⟨b, hb⟩ := Environment.binds_iff.mp (hs x (by simp))
    exact ⟨b, by rw [evalWith, Environment.get_eq_ok.mpr hb]⟩
  | and a b iha ihb =>
    simp only [nodes_and, List.mem_cons, List.mem_append] at hs hc
    obtain ⟨v, hv⟩ := iha (fun x hx => hs x (.inr (.inl hx))) fun g n hg => hc g n (.inr (.inl hg))
    obtain ⟨w, hw⟩ := ihb (fun x hx => hs x (.inr (.inr hx))) fun g n hg => hc g n (.inr (.inr hg))
    cases v <;> simp [evalWith, hv, hw]
  | or a b iha ihb =>
    simp only [nodes_or, List.mem_cons, List.mem_append] at hs hc
    obtain ⟨v, hv⟩ := iha (fun x hx => hs x (.inr (.inl hx))) fun g n hg => hc g n (.inr (.inl hg))
    obtain ⟨w, hw⟩ := ihb (fun x hx => hs x (.inr (.inr hx))) fun g n hg => hc g n (.inr (.inr hg))
    cases v <;> simp [evalWith, hv, hw]
  | not a ih =>
    simp only [nodes_not, List.mem_cons] at hs hc
    obtain ⟨v, hv⟩ := ih (fun x hx => hs x (.inr hx)) fun g n hg => hc g n (.inr hg)
    exact ⟨!v, by simp [evalWith, hv, Except.map]⟩
  | call f as ih =>
    simp only [nodes_call, List.mem_cons, List.mem_flatMap] at hs hc
    have has : ∀ a ∈ as, ∃ b, evalWith enter env a = .ok b := fun a ha =>
      ih a ha (fun x hx => hs x (.inr ⟨a, ha, hx⟩)) fun g n hg => hc g n (.inr ⟨a, ha, hg⟩)
    obtain ⟨values, hv, hl⟩ := evalAllWith_ok has
    obtain ⟨d, hd, harity, henter⟩ := hc f as.length (.inl rfl)
    obtain ⟨b, hb⟩ := henter values hl
    exact ⟨b, by simp [evalWith, hd, harity, hv, hb]⟩

end Expr

namespace Callable

variable {ds : Definitions} {us : List Update} {f : Name} {d : Definition}

/-- A call nests no deeper than the rank of its function. -/
theorem enter_ok (h : Callable ds.find? us) (hf : Uses ds.find? us f) (hd : ds.find? f = some d)
    {n : ℕ} (hn : rank (Calls ds.find?) ds.names f < n) {values : List Bool}
    (hv : values.length = d.arity) : ∃ b, ds.enter n d values = .ok b := by
  -- What the body calls has a lower rank, as the function itself is not below it.
  induction n generalizing f d values with
  | zero => omega
  | succ n ih =>
    refine Expr.evalWith_ok d.body (fun x hx => ?_) fun g m hg => ?_
    · refine Environment.bindAll_binds (.inr ?_)
      rw [List.map_fst_zip (by rw [hv]; exact le_rfl)]
      exact h.parameters f hf d hd x (Expr.mem_signals.mpr hx)
    · obtain ⟨d', hd', harity⟩ := Option.map_eq_some_iff.mp (h.bodies f hf d hd g m hg)
      have hcalls : Calls ds.find? f g := ⟨d, m, hd, hg⟩
      have hg := hf.body hcalls
      have hlt := rank_lt_rank (Definitions.mem_names_of_find? hd') hcalls (h.acyclic g hg)
      refine ⟨d', Environment.definition_eq_ok ?_, harity, fun values hv => ?_⟩
      · rw [Definition.scope_definitions]
        exact hd'
      · exact ih hg hd' (by omega) (hv.trans harity.symm)

theorem eval_ok {env : Environment} (h : Callable env.definitions.find? us) {u : Update}
    (hu : u ∈ us) (hs : ∀ x ∈ u.value.signals, env.binds x) :
    ∃ b, u.value.eval env = .ok b := by
  refine Expr.evalWith_ok u.value (fun x hx => hs x (Expr.mem_signals.mpr hx)) fun g n hg => ?_
  obtain ⟨d, hd, harity⟩ := Option.map_eq_some_iff.mp (h.updates u hu g n hg)
  have hg : Uses env.definitions.find? us g := .update hu hg
  refine ⟨d, Environment.definition_eq_ok hd, harity, fun values hv => ?_⟩
  have hlt := rank_lt_length (Definitions.mem_names_of_find? hd) (h.acyclic g hg)
  have hle := env.definitions.length_names_le_depth
  exact h.enter_ok hg hd (by omega) (hv.trans harity.symm)

end Callable

theorem not_transGen_calls {lookup : Name → Option Definition} (rank : Name → ℕ)
    (h : ∀ f g, Calls lookup f g → rank g < rank f) (f : Name) :
    ¬ Relation.TransGen (Calls lookup) f f := by
  have hlt : ∀ g, Relation.TransGen (Calls lookup) f g → rank g < rank f := by
    intro g hg
    induction hg with
    | single hg => exact h _ _ hg
    | tail _ hg ih => exact (h _ _ hg).trans ih
  exact fun hf => absurd (hlt f hf) (Nat.lt_irrefl _)

end SyncCircuit
