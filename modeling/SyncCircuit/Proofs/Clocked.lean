import SyncCircuit.Proofs.History

/-!
A fresh simulation that is only clocked, and always with success. It comes through the cycles one by
one, and a run is as many clocks as it takes to be done.
-/

namespace SyncCircuit

namespace Simulation

variable {c : Circuit} {s s' : Simulation} {t : ℕ}

theorem clock_cases (h : s.clock = .done s') :
    (s.phase = .uninitialized ∧ s.reset = .done s') ∨
    (∃ t, s.phase = .cycle t ∧ t + 1 < s.circuit.length ∧ s.advance (t + 1) = .done s') ∨
    (∃ t, s.phase = .cycle t ∧ s.circuit.length ≤ t + 1 ∧ s' = { s with phase := .done }) ∨
    (s.phase = .done ∧ s' = s) := by
  cases hp : s.phase with
  | uninitialized =>
    rw [clock_of_uninitialized hp] at h
    exact Or.inl ⟨rfl, h⟩
  | cycle t =>
    by_cases ht : t + 1 < s.circuit.length
    · rw [clock_of_cycle hp ht] at h
      exact Or.inr (Or.inl ⟨t, rfl, ht, h⟩)
    · have hle : s.circuit.length ≤ t + 1 := by omega
      rw [clock_of_last hp hle, Outcome.done_inj] at h
      exact Or.inr (Or.inr (Or.inl ⟨t, rfl, hle, h.symm⟩))
  | done =>
    rw [clock_of_done hp, Outcome.done_inj] at h
    exact Or.inr (Or.inr (Or.inr ⟨rfl, h.symm⟩))

theorem clock_to_cycle (h : s.clock = .done s') (hp : s'.phase = .cycle t) :
    (t = 0 ∧ s.phase = .uninitialized ∧ s.reset = .done s') ∨
    ∃ u, t = u + 1 ∧ s.phase = .cycle u ∧ s.advance (u + 1) = .done s' := by
  rcases clock_cases h with ⟨hu, hr⟩ | ⟨u, hu, _, ha⟩ | ⟨_, _, _, rfl⟩ | ⟨hd, rfl⟩
  · have hf := phase_of_reset rfl hr
    rw [hp, Circuit.firstPhase] at hf
    split at hf <;> cases hf
    exact Or.inl ⟨rfl, hu, hr⟩
  · obtain ⟨env, ts, _, _, rfl⟩ := advance_eq_done.mp ha
    cases hp
    exact Or.inr ⟨u, rfl, hu, ha⟩
  · cases hp
  · rw [hd] at hp
    cases hp

/-- A fresh simulation that has been clocked any number of times, always with success. -/
inductive Clocked (c : Circuit) : Simulation → Prop where
  | start : Clocked c (start c)
  | clock {s s' : Simulation} : Clocked c s → s.clock = .done s' → Clocked c s'

theorem Clocked.coherent (h : Clocked c s) : Coherent c s := by
  induction h with
  | start => exact coherent_start c
  | clock _ hs ih => exact ih.of_clock hs

structure Successive (c : Circuit) (t : ℕ) (s s' : Simulation) : Prop where
  clocked : Clocked c s
  phase : s.phase = .cycle t
  clock : s.clock = .done s'
  next : s'.phase = .cycle (t + 1)

theorem Clocked.eq_start (h : Clocked c s) (hp : s.phase = .uninitialized) :
    s = Simulation.start c := by
  cases h with
  | start => rfl
  | @clock r _ hr hs =>
    rcases clock_cases hs with ⟨_, hs⟩ | ⟨_, _, _, ha⟩ | ⟨_, _, _, rfl⟩ | ⟨hd, rfl⟩
    · rw [phase_of_reset rfl hs, Circuit.firstPhase] at hp
      split at hp <;> cases hp
    · obtain ⟨env, ts, _, _, rfl⟩ := advance_eq_done.mp ha
      cases hp
    · cases hp
    · rw [hd] at hp
      cases hp

theorem Clocked.cycle_zero (h : Clocked c s) (hp : s.phase = .cycle 0) :
    (Simulation.start c).clock = .done s ∧ (Simulation.start c).reset = .done s := by
  cases h with
  | start => cases hp
  | @clock r _ hr hs =>
    rcases clock_to_cycle hs hp with ⟨_, hu, hreset⟩ | ⟨u, hu, _⟩
    · obtain rfl := hr.eq_start hu
      exact ⟨hs, hreset⟩
    · omega

theorem Clocked.first (h : Clocked c s) (hp : s.phase = .cycle 0) :
    c.Settles 0 (.empty c.definitions) s.environment ∧
      Outcome.mapEach (Trace.record s.environment 0) c.unsetOutputs = .done s.outputs := by
  have hpos := (h.coherent.cycle 0 hp).1
  have hr := (h.cycle_zero hp).2
  obtain ⟨env, ts, he, hts, rfl⟩ :=
    (reset_eq_done_of_length_pos (s := Simulation.start c) hpos).mp hr
  exact ⟨he, hts⟩

theorem Clocked.previous (h : Clocked c s') (hp : s'.phase = .cycle (t + 1)) :
    ∃ s, Successive c t s s' := by
  cases h with
  | start => cases hp
  | @clock s _ hr hs =>
    rcases clock_to_cycle hs hp with ⟨h0, _⟩ | ⟨u, hu, hs', _⟩
    · omega
    · obtain rfl : u = t := by omega
      exact ⟨s, hr, hs', hs, hp⟩

theorem Successive.advance (h : Successive c t s s') :
    s.circuit = c ∧ s.advance (t + 1) = .done s' := by
  refine ⟨h.clocked.coherent.circuit, ?_⟩
  rcases clock_to_cycle h.clock h.next with ⟨h0, _⟩ | ⟨u, hu, _, ha⟩
  · omega
  · obtain rfl : u = t := by omega
    exact ha

theorem Successive.settles (h : Successive c t s s') :
    c.Settles (t + 1) s.environment s'.environment := by
  obtain ⟨rfl, ha⟩ := h.advance
  obtain ⟨env, ts, he, _, rfl⟩ := advance_eq_done.mp ha
  exact he

theorem Successive.coherent (h : Successive c t s s') : Coherent c s' :=
  (h.clocked.clock h.clock).coherent

theorem Successive.recorded (h : Successive c t s s') :
    Outcome.mapEach (Trace.record s'.environment (t + 1)) s.outputs = .done s'.outputs := by
  obtain ⟨rfl, ha⟩ := h.advance
  obtain ⟨env, ts, _, hts, rfl⟩ := advance_eq_done.mp ha
  exact hts

theorem clocked_of_clocks {n : ℕ} (h : Clocked c s) (hn : clocks n s = .done s') :
    Clocked c s' := by
  induction n generalizing s with
  | zero =>
    obtain rfl := Outcome.done_inj.mp hn
    exact h
  | succ n ih =>
    rw [clocks_succ, Outcome.andThen_eq_done] at hn
    obtain ⟨r, hr, hn⟩ := hn
    exact ih (h.clock hr) hn

theorem remaining_eq_zero : s.remaining = 0 ↔ s.phase = .done := by
  cases hp : s.phase <;> simp [remaining, hp]

theorem remaining_of_clock (h : Coherent c s) (hs : s.clock = .done s') :
    s'.remaining ≤ s.remaining - 1 := by
  have hc := h.circuit
  rcases clock_cases hs with ⟨hp, hr⟩ | ⟨t, hp, ht, ha⟩ | ⟨_, _, _, rfl⟩ | ⟨hp, rfl⟩
  · have hp' := phase_of_reset rfl hr
    have hc' : s'.circuit = s.circuit := (coherent_of_reset rfl hr).circuit
    unfold Circuit.firstPhase at hp'
    by_cases hl : s.circuit.length = 0
    · rw [if_pos hl] at hp'
      simp [remaining, hp']
    · rw [if_neg hl] at hp'
      simp only [remaining, hp, hp', hc']
      omega
  · obtain ⟨env, ts, _, _, rfl⟩ := advance_eq_done.mp ha
    simp only [remaining, hp]
    omega
  · simp [remaining]
  · simp [remaining, hp]

theorem phase_of_clocks {n : ℕ} (h : Clocked c s) (hn : clocks n s = .done s')
    (hr : s.remaining ≤ n) : s'.phase = .done := by
  induction n generalizing s with
  | zero =>
    obtain rfl := Outcome.done_inj.mp hn
    exact remaining_eq_zero.mp (Nat.le_zero.mp hr)
  | succ n ih =>
    rw [clocks_succ, Outcome.andThen_eq_done] at hn
    obtain ⟨r, hs, hn⟩ := hn
    have hle := remaining_of_clock h.coherent hs
    exact ih (h.clock hs) hn (by omega)

theorem Clocked.last (h : Clocked c s) (hp : s.phase = .done) (hl : 0 < c.length) :
    ∃ r t, Clocked c r ∧ r.phase = .cycle t ∧ t + 1 = c.length ∧ s.outputs = r.outputs := by
  induction h with
  | start => cases hp
  | @clock s s' hs hc ih =>
    rcases clock_cases hc with ⟨_, hr⟩ | ⟨t, _, _, ha⟩ | ⟨t, ht, hle, rfl⟩ | ⟨hd, rfl⟩
    · rw [phase_of_reset hs.coherent.circuit hr, Circuit.firstPhase, if_neg (by omega)] at hp
      cases hp
    · obtain ⟨env, ts, _, _, rfl⟩ := advance_eq_done.mp ha
      cases hp
    · have hlt := (hs.coherent.cycle t ht).1
      rw [hs.coherent.circuit] at hle
      exact ⟨s, t, hs, ht, by omega, rfl⟩
    · exact ih hp

/-- The state in which each cycle ends. -/
def stateAt (c : Circuit) (t : ℕ) : Simulation := after c (List.replicate (t + 1) .clock)

theorem stateAt_succ (c : Circuit) (t : ℕ) : stateAt c (t + 1) = (stateAt c t).clock.state := by
  rw [stateAt, after, List.replicate_succ', List.foldl_append]
  rfl

theorem Clocked.eq_stateAt (h : Clocked c s) (hp : s.phase = .cycle t) : s = stateAt c t := by
  induction t generalizing s with
  | zero => exact (congrArg Outcome.state (h.cycle_zero hp).1).symm
  | succ t ih =>
    obtain ⟨r, hr⟩ := h.previous hp
    rw [stateAt_succ, ← ih hr.clocked hr.phase, hr.clock]
    rfl

theorem Clocked.before (h : Clocked c s) (hp : s.phase = .cycle t) {i : ℕ} (hi : i ≤ t) :
    Clocked c (stateAt c i) ∧ (stateAt c i).phase = .cycle i := by
  induction t generalizing s with
  | zero =>
    obtain rfl : i = 0 := by omega
    rw [← h.eq_stateAt hp]
    exact ⟨h, hp⟩
  | succ t ih =>
    by_cases hlast : i = t + 1
    · subst i
      rw [← h.eq_stateAt hp]
      exact ⟨h, hp⟩
    · obtain ⟨r, hr⟩ := h.previous hp
      exact ih hr.clocked hr.phase (by omega)

theorem Clocked.cells (h : Clocked c s) (hp : s.phase = .cycle t) {tr : Trace}
    (htr : tr ∈ s.outputs) {i : ℕ} (hi : i ≤ t) :
    tr.get? i = (stateAt c i).environment.values[tr.signal]? := by
  induction t generalizing s tr with
  | zero =>
    obtain rfl : i = 0 := by omega
    rw [← h.eq_stateAt hp]
    exact (get?_of_mapEach_record (h.first hp).2 htr).1
  | succ t ih =>
    obtain ⟨r, hr⟩ := h.previous hp
    by_cases hlast : i = t + 1
    · subst i
      rw [← h.eq_stateAt hp]
      exact (get?_of_mapEach_record hr.recorded htr).1
    · obtain ⟨tr₀, h₀, hrec⟩ := forall₂_right (Outcome.mapEach_eq_done.mp hr.recorded) htr
      have same := Trace.sameBut_of_record hrec
      rw [same.cells i hlast, same.signal]
      exact ih hr.clocked hr.phase h₀ (by omega)

theorem Clocked.reached (h : Clocked c s) (hp : s.phase = .done) (ht : t < c.length) :
    Clocked c (stateAt c t) ∧ (stateAt c t).phase = .cycle t := by
  obtain ⟨r, n, hr, hn, hl, _⟩ := h.last hp (by omega)
  exact hr.before hn (by omega)

theorem Clocked.outputs_of_done (h : Clocked c s) (hp : s.phase = .done) :
    s.outputs = c.outputs.map fun x =>
      .tabulate x c.length fun i => (stateAt c i).environment.values[x]? := by
  have htab : ∀ tr ∈ s.outputs, tr = .tabulate tr.signal c.length fun i =>
      (stateAt c i).environment.values[tr.signal]? := by
    intro tr htr
    refine Trace.eq_tabulate (h.coherent.lengths tr htr) fun i hi => ?_
    obtain ⟨r, t, hr, ht, hl, ho⟩ := h.last hp (by omega)
    exact hr.cells ht (ho ▸ htr) (by omega)
  rw [← h.coherent.names, List.map_map]
  exact (List.map_id s.outputs).symm.trans (List.map_congr_left htab)

/-- No clock skips a cycle. -/
theorem phase_of_clock_state (h : Coherent c s) (hp : s.clock.state.phase = .cycle t) :
    s.phase = .cycle t ∨ t = 0 ∨ ∃ u, t = u + 1 ∧ s.phase = .cycle u := by
  cases hf : s.clock.fault with
  | some f =>
    rw [h.responds.clock_fault f hf] at hp
    exact Or.inl hp
  | none =>
    rcases clock_to_cycle (Outcome.eq_done_of_fault hf) hp with ⟨ht, _⟩ | ⟨u, ht, hu, _⟩
    · exact Or.inr (Or.inl ht)
    · exact Or.inr (Or.inr ⟨u, ht, hu⟩)

/-- The state after a number of clocks, whether they fail or not. -/
def afterClocks (c : Circuit) (k : ℕ) : Simulation := after c (.replicate k .clock)

theorem afterClocks_succ (c : Circuit) (k : ℕ) :
    afterClocks c (k + 1) = (afterClocks c k).clock.state := by
  rw [afterClocks, after, List.replicate_succ', List.foldl_append]
  rfl

theorem lt_of_afterClocks {k : ℕ} (hp : (afterClocks c k).phase = .cycle t) : t < k := by
  induction k generalizing t with
  | zero => cases hp
  | succ k ih =>
    rw [afterClocks_succ] at hp
    rcases phase_of_clock_state (coherent_after c _) hp with h | rfl | ⟨u, rfl, h⟩
    · have := ih h
      omega
    · omega
    · have := ih h
      omega

theorem clocks_succ_last (m : ℕ) (s : Simulation) :
    clocks (m + 1) s = (clocks m s).andThen clock := by
  induction m generalizing s with
  | zero =>
    rw [clocks_succ]
    exact Outcome.andThen_done s.clock
  | succ m ih =>
    rw [clocks_succ, clocks_succ m, Outcome.andThen_assoc]
    exact Outcome.andThen_congr fun r _ => ih r

theorem clocks_eq_done_iff {m : ℕ} : clocks m (start c) = .done s ↔
    (∀ k < m, (afterClocks c k).clock.fault = none) ∧ s = afterClocks c m := by
  induction m generalizing s with
  | zero => simp [clocks, afterClocks, after, eq_comm]
  | succ m ih =>
    rw [clocks_succ_last, Outcome.andThen_eq_done]
    constructor
    · rintro ⟨r, hr, hs⟩
      obtain ⟨hf, rfl⟩ := ih.mp hr
      rw [afterClocks_succ, hs]
      refine ⟨fun k hk => ?_, rfl⟩
      by_cases hkm : k = m
      · rw [hkm, hs]
        rfl
      · exact hf k (by omega)
    · rintro ⟨hf, rfl⟩
      refine ⟨afterClocks c m, ih.mpr ⟨fun k hk => hf k (by omega), rfl⟩, ?_⟩
      rw [afterClocks_succ]
      exact Outcome.eq_done_of_fault (hf m (by omega))

theorem phase_afterClocks (h : ∀ k ≤ t, (afterClocks c k).clock.fault = none)
    (ht : t < c.length) : (afterClocks c (t + 1)).phase = .cycle t := by
  induction t with
  | zero =>
    have hf := (coherent_start c).responds.clock_uninitialized rfl (h 0 le_rfl)
    rw [Circuit.firstPhase, if_neg (by omega)] at hf
    exact hf
  | succ t ih =>
    have hp := ih (fun k hk => h k (by omega)) (by omega)
    have hc := (coherent_after c _).responds.clock_cycle t hp (h (t + 1) le_rfl)
    rw [if_neg (by omega)] at hc
    rw [afterClocks_succ]
    exact hc

end Simulation

namespace Circuit

open Simulation (start afterClocks)

variable {c c' : Circuit}

theorem simulate_of_fault {f : Fault} (h : (start c).run.fault = some f) :
    c.simulate = ⟨c, some f⟩ := by
  simp [simulate, h]

theorem simulate_eq_done_iff : c.simulate = .done c' ↔
    ∃ s, (start c).run = .done s ∧ c' = { c with recorded := s.outputs } := by
  constructor
  · intro h
    cases hf : (start c).run.fault with
    | some f =>
      rw [simulate_of_fault hf] at h
      cases h
    | none =>
      simp only [simulate, hf, Outcome.done_inj] at h
      exact ⟨_, Outcome.eq_done_of_fault hf, h.symm⟩
  · rintro ⟨s, hs, rfl⟩
    simp [simulate, hs]

theorem simulate_eq_done (h : c.simulate = .done c') :
    ∃ s, Simulation.Clocked c s ∧ s.phase = .done ∧ c' = { c with recorded := s.outputs } := by
  obtain ⟨s, hs, rfl⟩ := simulate_eq_done_iff.mp h
  have hp := Simulation.phase_of_clocks .start hs (Nat.le_refl _)
  exact ⟨s, Simulation.clocked_of_clocks .start hs, hp, rfl⟩

theorem simulate_eq_done_iff_clocks : c.simulate = .done c' ↔
    (∀ k < c.length + 1, (afterClocks c k).clock.fault = none) ∧
      c' = { c with recorded := (afterClocks c (c.length + 1)).outputs } := by
  rw [simulate_eq_done_iff]
  constructor
  · rintro ⟨s, hs, rfl⟩
    obtain ⟨hall, rfl⟩ := Simulation.clocks_eq_done_iff.mp hs
    exact ⟨hall, rfl⟩
  · rintro ⟨hall, rfl⟩
    exact ⟨_, Simulation.clocks_eq_done_iff.mpr ⟨hall, rfl⟩, rfl⟩

theorem simulate_fault {f : Fault} :
    c.simulate.fault = some f ↔ (start c).run.fault = some f := by
  cases hf : (start c).run.fault with
  | some e => rw [simulate_of_fault hf]
  | none =>
    rw [simulate_eq_done_iff.mpr ⟨_, Outcome.eq_done_of_fault hf, rfl⟩]
    rfl

theorem simulate_state_of_fault {f : Fault} (h : c.simulate.fault = some f) :
    c.simulate.state = c := by
  rw [simulate_of_fault (simulate_fault.mp h)]

end Circuit

end SyncCircuit
