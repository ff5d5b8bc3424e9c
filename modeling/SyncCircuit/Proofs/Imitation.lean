import SyncCircuit.Proofs.Clocked
import SyncCircuit.Proofs.Nesting

/-!
Circuits that do the same. If whatever a pass of one circuit makes of the signals, the pass of
another makes of them too, then each successful simulation of the one is a simulation of the other,
state by state, up to the definitions that the environments carry.
-/

namespace SyncCircuit

theorem Assignment.run_under {α : Type} {A B : Assignment α} {ds : Definitions} {as : List α}
    {env env' : Environment} (hname : ∀ a, A.name a = B.name a)
    (hvalue : ∀ a ∈ as, ∀ e : Environment, e.definitions = env.definitions →
      B.value (e.under ds) a = A.value e a) (hr : A.run as env = .done env') :
    B.run as (env.under ds) = .done (env'.under ds) := by
  induction as generalizing env with
  | nil =>
    obtain rfl := Outcome.done_inj.mp hr
    rfl
  | cons a as ih =>
    obtain ⟨b, hb, hr⟩ := run_cons_eq_done.mp hr
    refine run_cons_eq_done.mpr ⟨b, ?_, ?_⟩
    · rw [hvalue a List.mem_cons_self env rfl]
      exact hb
    · rw [Environment.bind_under, ← hname]
      exact ih (fun c hc => hvalue c (List.mem_cons_of_mem a hc)) hr

/-- What the passes of the first circuit come to, those of the second come to as well. -/
structure Circuit.Follows (c d : Circuit) : Prop where
  outputs : d.outputs = c.outputs
  length : d.length = c.length
  drives : ∀ t env env', (c.driving t).run c.inputs env = .done env' →
    (d.driving t).run d.inputs env = .done env'
  latches : ∀ t env env', (latching t).run c.latches env = .done env' →
    (latching t).run d.latches env = .done env'
  updates : ∀ env env', env.definitions = c.definitions → updating.run c.updates env = .done env' →
    updating.run d.updates (env.under d.definitions) = .done (env'.under d.definitions)

namespace Circuit.Follows

variable {c d : Circuit} {t : ℕ} {env env' : Environment}

theorem driven (h : c.Follows d) (hr : (c.driving t).run c.inputs env = .done env') :
    (d.driving t).run d.inputs (env.under d.definitions) = .done (env'.under d.definitions) :=
  Assignment.run_under (fun _ => rfl) (fun _ _ _ _ => rfl) (h.drives t env env' hr)

theorem latched (h : c.Follows d) (hr : (latching t).run c.latches env = .done env') :
    (latching t).run d.latches (env.under d.definitions) = .done (env'.under d.definitions) :=
  Assignment.run_under (fun _ => rfl) (fun _ _ _ _ => rfl) (h.latches t env env' hr)

theorem settles (h : c.Follows d) (hd : env.definitions = c.definitions)
    (hs : c.Settles t env env') :
    d.Settles t (env.under d.definitions) (env'.under d.definitions) := by
  obtain ⟨driven, latched, hdriven, hlatched, hupdated⟩ := hs
  have hdefs : latched.definitions = c.definitions := by
    rw [(Assignment.rebinds_of_run hlatched).definitions,
      (Assignment.rebinds_of_run hdriven).definitions, hd]
  exact ⟨_, _, h.driven hdriven, h.latched hlatched, h.updates latched env' hdefs hupdated⟩

theorem unsetOutputs (h : c.Follows d) : d.unsetOutputs = c.unsetOutputs := by
  unfold Circuit.unsetOutputs
  rw [h.outputs, h.length]

end Circuit.Follows

namespace Simulation

def on (d : Circuit) (s : Simulation) : Simulation :=
  ⟨d, s.environment.under d.definitions, s.phase, s.outputs⟩

variable {c d : Circuit} {s s' : Simulation} {t : ℕ}

theorem start_on (h : c.Follows d) : (start c).on d = start d := by
  unfold on start
  rw [h.unsetOutputs]
  rfl

theorem reset_on (h : c.Follows d) (hc : s.circuit = c) (hr : s.reset = .done s') :
    (s.on d).reset = .done (s'.on d) := by
  subst hc
  by_cases hl : s.circuit.length = 0
  · obtain ⟨env, he, rfl⟩ := (reset_eq_done_of_length_eq_zero hl).mp hr
    have hld : (s.on d).circuit.length = 0 := h.length.trans hl
    refine (reset_eq_done_of_length_eq_zero hld).mpr ⟨_, h.driven he, ?_⟩
    simp only [on, h.unsetOutputs]
  · obtain ⟨env, ts, he, hts, rfl⟩ := (reset_eq_done_of_length_pos (by omega)).mp hr
    have hld : 0 < (s.on d).circuit.length := by
      have hlen : (s.on d).circuit.length = s.circuit.length := h.length
      omega
    refine (reset_eq_done_of_length_pos hld).mpr ⟨_, ts, h.settles rfl he, ?_, rfl⟩
    rw [show (s.on d).circuit = d from rfl, h.unsetOutputs]
    exact hts

theorem advance_on (h : c.Follows d) (hs : Shaped c s) (ha : s.advance (t + 1) = .done s') :
    (s.on d).advance (t + 1) = .done (s'.on d) := by
  obtain ⟨env, ts, he, hts, rfl⟩ := advance_eq_done.mp ha
  rw [hs.circuit] at he
  exact advance_eq_done.mpr ⟨_, ts, h.settles hs.definitions he, hts, rfl⟩

theorem clock_on (h : c.Follows d) (hs : Shaped c s) (hc : s.clock = .done s') :
    (s.on d).clock = .done (s'.on d) := by
  have hl : (s.on d).circuit.length = s.circuit.length := by
    rw [hs.circuit]
    exact h.length
  rcases clock_cases hc with ⟨hp, hr⟩ | ⟨t, hp, ht, ha⟩ | ⟨t, hp, ht, rfl⟩ | ⟨hp, rfl⟩
  · rw [clock_of_uninitialized (s := s.on d) hp]
    exact reset_on h hs.circuit hr
  · rw [clock_of_cycle (s := s.on d) hp (by omega)]
    exact advance_on h hs ha
  · rw [clock_of_last (s := s.on d) hp (by omega)]
    rfl
  · exact clock_of_done hp

theorem Clocked.on (h : c.Follows d) (hs : Clocked c s) : Clocked d (s.on d) := by
  induction hs with
  | start =>
    rw [start_on h]
    exact .start
  | clock hs hc ih => exact .clock ih (clock_on h hs.coherent.toShaped hc)

theorem clocks_on (h : c.Follows d) {n : ℕ} (hs : Clocked c s) (hn : clocks n s = .done s') :
    clocks n (s.on d) = .done (s'.on d) := by
  induction n generalizing s with
  | zero =>
    obtain rfl := Outcome.done_inj.mp hn
    rfl
  | succ n ih =>
    rw [clocks_succ, Outcome.andThen_eq_done] at hn ⊢
    obtain ⟨r, hr, hn⟩ := hn
    exact ⟨r.on d, clock_on h hs.coherent.toShaped hr, ih (hs.clock hr) hn⟩

theorem stateAt_on (h : c.Follows d) (hs : Clocked c s) (hp : s.phase = .cycle t) :
    (stateAt c t).on d = stateAt d t := by
  rw [← hs.eq_stateAt hp]
  exact (hs.on h).eq_stateAt hp

end Simulation

namespace Circuit

open Simulation (start stateAt)

variable {c d c' : Circuit}

theorem Follows.simulate (h : c.Follows d) (hc : c.simulate = .done c') :
    d.simulate = .done { d with recorded := c'.recorded } := by
  obtain ⟨s, hs, rfl⟩ := simulate_eq_done_iff.mp hc
  refine simulate_eq_done_iff.mpr ⟨s.on d, ?_, rfl⟩
  have hn := Simulation.clocks_on h .start hs
  have hr : (start d).remaining = (start c).remaining := congrArg (· + 1) h.length
  rw [Simulation.start_on h] at hn
  rw [Simulation.run, hr]
  exact hn

theorem clocked_of_simulate (hc : c.simulate = .done c') {t : ℕ} (ht : t < c.length) :
    Simulation.Clocked c (stateAt c t) ∧ (stateAt c t).phase = .cycle t := by
  obtain ⟨s, hs, hp, rfl⟩ := simulate_eq_done hc
  obtain ⟨r, u, hr, hu, hl, _⟩ := hs.last hp (by omega)
  exact hr.before hu (by omega)

theorem Follows.stateAt (h : c.Follows d) (hc : c.simulate = .done c') {t : ℕ}
    (ht : t < c.length) : (stateAt c t).on d = stateAt d t := by
  obtain ⟨hs, hp⟩ := clocked_of_simulate hc ht
  exact Simulation.stateAt_on h hs hp

theorem simulate_of_follows (h : c.Follows d) (k : d.Follows c) :
    (c.simulate.fault = none ↔ d.simulate.fault = none) ∧
      ∀ c' d', c.simulate = .done c' → d.simulate = .done d' → c'.recorded = d'.recorded := by
  have aux : ∀ {c d : Circuit}, c.Follows d → c.simulate.fault = none →
      d.simulate.fault = none := by
    intro c d h hc
    rw [h.simulate (Outcome.eq_done_of_fault hc)]
    rfl
  refine ⟨⟨aux h, aux k⟩, fun c' d' hc hd => ?_⟩
  rw [h.simulate hc, Outcome.done_inj] at hd
  rw [← hd]

end Circuit

end SyncCircuit
