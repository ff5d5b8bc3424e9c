import SyncCircuit.Proofs.Carried
import SyncCircuit.Proofs.LatchDelay

/-!
A circuit as equations between its signals. Simulation goes through the cycles with one environment
that it changes signal by signal. Where no signal has two sources and none is read before its own
source, the values at the ends of the cycles are the only solution of the equations of all cycles.
-/

namespace SyncCircuit

open Environment (AgreeOn)

namespace Circuit

/-- Each signal has one source, and each update reads only what the inputs, the latch outputs and
the updates before it provide. -/
structure Causal (c : Circuit) : Prop extends Separate c where
  targets_nodup : c.targets.Nodup
  inputs_targets : ∀ x ∈ c.inputs, x ∉ c.targets
  latches_inputs : ∀ x ∈ c.latches, x ∉ c.inputs
  ordered : ∀ before u after, c.updates = before ++ u :: after →
    ∀ x ∈ u.value.signals, x ∈ c.inputs ∨ x ∈ c.latchOutputs ∨ x ∈ before.map Update.target

/-- The equations of a circuit. The value of a signal in a cycle depends on the values in the same
cycle, and for a latch output on those in the cycle before. -/
structure Synchronous (c : Circuit) (v : ℕ → Valuation) : Prop where
  input : ∀ t < c.length, ∀ x ∈ c.inputs, (v t)[x]? = c.stimulusAt x t
  first : 0 < c.length → ∀ x ∈ c.latches, (v 0)[latchOutput x]? = some false
  delay : ∀ t, t + 1 < c.length → ∀ x ∈ c.latches, (v (t + 1))[latchOutput x]? = (v t)[x]?
  update : ∀ t < c.length, ∀ u ∈ c.updates,
    (v t)[u.target]? = (u.value.eval ⟨c.definitions, v t⟩).toOption

variable {c c' : Circuit} {t : ℕ} {env env' : Environment}

/-- What the updates can read before any of them is evaluated. -/
def provided (c : Circuit) : Set Name := {x | x ∈ c.inputs ∨ x ∈ c.latchOutputs}

theorem Causal.ordered_provided (h : c.Causal) :
    Assignment.Ordered (fun u => u.value.reads) Update.target c.provided c.updates := by
  refine ordered_updates (fun x hx => Or.inl hx) (fun x hx => Or.inr hx) fun x hx => ?_
  rw [carried_eq_nil_iff.mpr h.ordered] at hx
  cases hx

/-- No update changes what it or one before it has read, so all equations hold in the end. -/
theorem eval_of_updating {S : Set Name} {us : List Update}
    (ho : Assignment.Ordered (fun u => u.value.reads) Update.target S us)
    (hn : (us.map Update.target).Nodup) (hS : ∀ u ∈ us, u.target ∉ S)
    (h : updating.run us env = .done env') {u : Update} (hu : u ∈ us) :
    ∃ b, u.value.eval env' = .ok b ∧ env'.values[u.target]? = some b := by
  induction us generalizing S env with
  | nil => cases hu
  | cons w us ih =>
    obtain ⟨b, hb, hr⟩ := Assignment.run_cons_eq_done.mp h
    rw [List.map_cons, List.nodup_cons] at hn
    have frame := (Assignment.rebinds_of_run hr).frame
    rcases List.mem_cons.mp hu with rfl | hu
    · have hag : AgreeOn u.value.reads env env' := by
        have whole := Assignment.rebinds_of_run h
        refine ⟨whole.definitions.symm, fun x hx => (whole.frame x fun hm => ?_).symm⟩
        obtain ⟨w, hw, rfl⟩ := List.mem_map.mp hm
        exact hS w hw (ho.1 hx)
      refine ⟨b, (Expr.eval_congr u.value hag).symm.trans hb, ?_⟩
      rw [frame u.target hn.1]
      exact Environment.bind_values_self env u.target b
    · refine ih ho.2 hn.2 (fun w' hw' hm => ?_) hr hu
      rcases Set.mem_insert_iff.mp hm with heq | hm
      · exact hn.1 (heq ▸ List.mem_map_of_mem hw')
      · exact hS w' (List.mem_cons_of_mem w hw') hm

theorem Causal.eval_of_settles (hc : c.Causal) (h : c.Settles t env env') {u : Update}
    (hu : u ∈ c.updates) : ∃ b, u.value.eval env' = .ok b ∧ env'.values[u.target]? = some b := by
  obtain ⟨driven, latched, _, _, hr⟩ := h
  refine eval_of_updating hc.ordered_provided hc.targets_nodup (fun w hw hm => ?_) hr hu
  have ht : w.target ∈ c.targets := List.mem_map_of_mem hw
  rcases hm with hi | hl
  · exact hc.inputs_targets _ hi ht
  · exact hc.targets _ hl ht

theorem values_unique {S : Set Name} {us : List Update}
    (ho : Assignment.Ordered (fun u => u.value.reads) Update.target S us)
    (hs : AgreeOn S env env')
    (h : ∀ u ∈ us, env.values[u.target]? = (u.value.eval env).toOption)
    (h' : ∀ u ∈ us, env'.values[u.target]? = (u.value.eval env').toOption) :
    AgreeOn ({x | x ∈ us.map Update.target} ∪ S) env env' := by
  induction us generalizing S with
  | nil => simpa using hs
  | cons u us ih =>
    have hu : env.values[u.target]? = env'.values[u.target]? := by
      rw [h u List.mem_cons_self, h' u List.mem_cons_self, Expr.eval_congr _ (hs.mono ho.1)]
    have hs' : AgreeOn (insert u.target S) env env' := by
      refine ⟨hs.definitions, fun x hx => ?_⟩
      rcases Set.mem_insert_iff.mp hx with rfl | hx
      · exact hu
      · exact hs.values x hx
    have tail := ih ho.2 hs' (fun w hw => h w (List.mem_cons_of_mem u hw))
      fun w hw => h' w (List.mem_cons_of_mem u hw)
    refine tail.mono fun x hx => ?_
    rcases hx with hx | hx
    · rcases List.mem_cons.mp hx with rfl | hx
      · exact Or.inr (Set.mem_insert _ _)
      · exact Or.inl hx
    · exact Or.inr (Set.mem_insert_of_mem _ hx)

variable {v w : ℕ → Valuation}

theorem Synchronous.agree_of_latchOutputs (hc : c.Causal) (hv : c.Synchronous v)
    (hw : c.Synchronous w) (ht : t < c.length)
    (hl : ∀ x ∈ c.latchOutputs, (w t)[x]? = (v t)[x]?) :
    ∀ x ∈ c.signals, (w t)[x]? = (v t)[x]? := by
  have hp : AgreeOn c.provided ⟨c.definitions, w t⟩ ⟨c.definitions, v t⟩ := by
    refine ⟨rfl, fun x hx => ?_⟩
    rcases hx with hi | ho
    · exact (hw.input t ht x hi).trans (hv.input t ht x hi).symm
    · exact hl x ho
  have hag := values_unique hc.ordered_provided hp (hw.update t ht) (hv.update t ht)
  intro x hx
  apply hag.values
  rcases mem_signals.mp hx with hi | ho | hu
  · exact Or.inr (Or.inl hi)
  · exact Or.inr (Or.inr ho)
  · exact Or.inl hu

theorem Synchronous.unique (hc : c.Causal) (hv : c.Synchronous v)
    (hb : ∀ t < c.length, ∀ x, (v t)[x]?.isSome ↔ x ∈ c.signals) (hw : c.Synchronous w)
    (ht : t < c.length) : ∀ x ∈ c.signals, (w t)[x]? = (v t)[x]? := by
  induction t with
  | zero =>
    refine hv.agree_of_latchOutputs hc hw ht fun x hx => ?_
    obtain ⟨latch, hl, rfl⟩ := List.mem_map.mp hx
    exact (hw.first ht latch hl).trans (hv.first ht latch hl).symm
  | succ t ih =>
    refine hv.agree_of_latchOutputs hc hw ht fun x hx => ?_
    obtain ⟨latch, hl, rfl⟩ := List.mem_map.mp hx
    -- The latch has a value, because the latch output gets one from it.
    have hs : latch ∈ c.signals := by
      rw [← hb t (by omega), ← hv.delay t ht latch hl, hb (t + 1) ht]
      exact mem_signals.mpr (Or.inr (Or.inl hx))
    rw [hw.delay t ht latch hl, hv.delay t ht latch hl]
    exact ih (by omega) latch hs

end Circuit

namespace Simulation

variable {c c' : Circuit} {s : Simulation} {t : ℕ}

theorem Clocked.settles (h : Clocked c s) (hp : s.phase = .cycle t) :
    ∃ env, c.Settles t env s.environment := by
  cases t with
  | zero => exact ⟨_, (h.first hp).1⟩
  | succ t =>
    obtain ⟨r, hr⟩ := h.previous hp
    exact ⟨_, hr.settles⟩

theorem synchronous_stateAt (hc : c.Causal)
    (h : ∀ t < c.length, Clocked c (stateAt c t) ∧ (stateAt c t).phase = .cycle t) :
    c.Synchronous fun t => (stateAt c t).environment.values where
  input t ht x hx := by
    obtain ⟨env, he⟩ := (h t ht).1.settles (h t ht).2
    exact he.input_value hx (fun hl => hc.inputs x hl hx) (hc.inputs_targets x hx)
  first hl x hx := by
    obtain ⟨hs, hp⟩ := h 0 hl
    exact (hs.first hp).1.latchOutput_value hc.toSeparate hx
  delay t ht x hx := by
    obtain ⟨hs, hp⟩ := h (t + 1) ht
    obtain ⟨r, hr⟩ := hs.previous hp
    have hv := hr.settles.latchOutput_value hc.toSeparate hx
    rw [if_neg (Nat.succ_ne_zero t), if_neg (hc.latches_inputs x hx)] at hv
    rw [hr.clocked.eq_stateAt hr.phase] at hv
    exact hv
  update t ht u hu := by
    obtain ⟨hs, hp⟩ := h t ht
    obtain ⟨env, he⟩ := hs.settles hp
    obtain ⟨b, hb, hv⟩ := hc.eval_of_settles he hu
    have henv : (⟨c.definitions, (stateAt c t).environment.values⟩ : Environment) =
        (stateAt c t).environment := by
      rw [← hs.coherent.definitions]
    rw [henv, hb, hv]
    rfl

end Simulation

open Simulation (stateAt)

/-- A simulation that succeeds has recorded the solution of the equations of the circuit, and there
is no other one. -/
theorem Circuit.simulate_solves {c c' : Circuit} (hc : c.Causal) (h : c.simulate = .done c') :
    ∃ v, c.Synchronous v ∧
      (∀ t < c.length, ∀ x, (v t)[x]?.isSome ↔ x ∈ c.signals) ∧
      c'.recorded = c.outputs.map (fun x => .tabulate x c.length fun t => (v t)[x]?) ∧
      (∀ t < c.length, ∀ x ∈ c.outputs, (v t)[x]?.isSome) ∧
      ∀ w, c.Synchronous w → ∀ t < c.length, ∀ x ∈ c.signals, (w t)[x]? = (v t)[x]? := by
  obtain ⟨s, hs, hp, rfl⟩ := simulate_eq_done h
  have hne : s.phase ≠ .uninitialized := by simp [hp]
  have reached : ∀ t < c.length,
      Simulation.Clocked c (stateAt c t) ∧ (stateAt c t).phase = .cycle t := by
    intro t ht
    obtain ⟨r, n, hr, hn, hl, _⟩ := hs.last hp (by omega)
    exact hr.before hn (by omega)
  have solves := Simulation.synchronous_stateAt hc reached
  have binds : ∀ t < c.length, ∀ x,
      (stateAt c t).environment.values[x]?.isSome ↔ x ∈ c.signals := by
    intro t ht x
    obtain ⟨hr, hrp⟩ := reached t ht
    rw [← Environment.binds_eq_isSome]
    exact ⟨hr.coherent.bound x, hr.coherent.settled (by simp [hrp]) (by omega) x⟩
  refine ⟨_, solves, binds, hs.outputs_of_done hp, ?_,
    fun w hw t ht => solves.unique hc binds hw ht⟩
  intro t ht x hx
  exact (binds t ht x).mpr (hs.coherent.observed hne (by omega) x hx)

/-- A serial adder, least significant bits first. -/
def Circuit.adder : Circuit where
  name := "adder"
  inputs := ["A", "B"]
  outputs := ["S"]
  latches := ["C"]
  definitions := .ofList [⟨"xor", ["X", "Y"],
    .or (.and (.signal "X") (.not (.signal "Y"))) (.and (.not (.signal "X")) (.signal "Y"))⟩]
  updates := [
    ⟨"H", .call "xor" [.signal "A", .signal "B"]⟩,
    ⟨"S", .call "xor" [.signal "H", .signal "C'"]⟩,
    ⟨"C", .or (.and (.signal "A") (.signal "B")) (.and (.signal "C'") (.signal "H"))⟩]
  stimuli := [.ofValues "A" [true, true, false], .ofValues "B" [true, false, false]]
  recorded := [.unset "S" 3]
  length := 3
  length_eq := by decide

theorem Circuit.simulate_solves_adder : Circuit.adder.Causal ∧
    Circuit.adder.simulate =
      .done { Circuit.adder with recorded := [.ofValues "S" [false, false, true]] } ∧
    ∃ v, Circuit.adder.Synchronous v ∧
      ∀ w, Circuit.adder.Synchronous w → ∀ t < 3, (w t)["S"]? = (v t)["S"]? := by
  have hc : Circuit.adder.Causal := {
    inputs := by decide
    targets := by decide
    latches := by decide
    targets_nodup := by decide
    inputs_targets := by decide
    latches_inputs := by decide
    ordered := carried_eq_nil_iff.mp (by decide) }
  have h : Circuit.adder.simulate =
      .done { Circuit.adder with recorded := [.ofValues "S" [false, false, true]] } := by rfl
  obtain ⟨v, hv, _, _, _, hu⟩ := Circuit.simulate_solves hc h
  exact ⟨hc, h, v, hv, fun w hw t ht => hu w hw t ht "S" (by decide)⟩

end SyncCircuit
