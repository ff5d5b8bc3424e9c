import SyncCircuit.Proofs.Carried

/-!
Simulations of a prefix. A circuit whose input traces are cut to their first cycles is clocked like
the whole circuit as long as it has a next cycle: each clock has the same fault or none, and comes
to the same state with shorter outputs. Only the end of the simulation comes sooner.
-/

namespace SyncCircuit

namespace Trace

def cut (n : ℕ) (tr : Trace) : Trace := { tr with cells := tr.cells.take n }

variable {n t : ℕ} {tr : Trace}

@[simp] theorem cut_signal (n : ℕ) (tr : Trace) : (tr.cut n).signal = tr.signal := rfl

@[simp] theorem cut_length (n : ℕ) (tr : Trace) : (tr.cut n).length = min n tr.length := by
  simp [cut, length]

theorem cut_get? (h : t < n) : (tr.cut n).get? t = tr.get? t := by
  simp only [cut, get?, List.getElem?_take_of_lt h]

theorem cut_of_length_le (h : tr.length ≤ n) : tr.cut n = tr := by
  rw [cut, List.take_of_length_le h]

@[simp] theorem cut_unset (x : Name) (m n : ℕ) : (unset x m).cut n = unset x (min n m) := by
  simp [cut, unset]

theorem cut_tabulate {x : Name} {m : ℕ} (h : n ≤ m) (cell : ℕ → Option Bool) :
    (tabulate x m cell).cut n = tabulate x n cell := by
  simp only [cut, tabulate, ← List.map_take, List.take_range, min_eq_left h]

theorem set?_cut (h : t < n) (b : Bool) : (tr.cut n).set? t b = (tr.set? t b).map (cut n) := by
  by_cases ht : t < tr.length
  · have hcut : t < (tr.cut n).length := by
      rw [cut_length]
      omega
    rw [set?, set?, if_pos hcut, if_pos ht, Option.map_some]
    simp only [cut, List.take_set]
  · have hcut : ¬ t < (tr.cut n).length := by
      rw [cut_length]
      omega
    rw [set?, set?, if_neg hcut, if_neg ht, Option.map_none]

theorem record_cut (h : t < n) (env : Environment) :
    (tr.cut n).record env t = (tr.record env t).map (cut n) := by
  unfold record
  rw [cut_signal]
  cases env.get tr.signal with
  | error f => rfl
  | ok b =>
    simp only [set?_cut h]
    cases tr.set? t b <;> rfl

end Trace

def Program.cut (n : ℕ) (p : Program) : Program :=
  { p with stimuli := p.stimuli.map (Trace.cut n) }

namespace Circuit

def cut (n : ℕ) (c : Circuit) : Circuit :=
  { c with
    stimuli := c.stimuli.map (Trace.cut n)
    recorded := c.recorded.map (Trace.cut n)
    length := min n c.length
    length_eq := by
      simp only [List.forall_mem_map, Trace.cut_length]
      exact fun t ht => by rw [c.length_eq t ht] }

/-- The second circuit is the first with no more than `n` cycles, and driven alike in these. -/
structure Shortens (n : ℕ) (c d : Circuit) : Prop extends SameDesign c d where
  length : d.length = min n c.length
  driven : ∀ t < n, ∀ x ∈ c.inputs, d.stimulusAt x t = c.stimulusAt x t

variable {n t : ℕ} {p : Program} {c d : Circuit}

theorem cut_stimulus? (n : ℕ) (c : Circuit) (x : Name) :
    (c.cut n).stimulus? x = (c.stimulus? x).map (Trace.cut n) := List.find?_map

theorem shortens_cut (n : ℕ) (c : Circuit) : Shortens n c (c.cut n) where
  inputs := rfl
  outputs := rfl
  latches := rfl
  definitions := rfl
  updates := rfl
  length := rfl
  driven t ht x _ := by
    rw [stimulusAt, stimulusAt, cut_stimulus?]
    cases c.stimulus? x with
    | none => rfl
    | some tr => exact Trace.cut_get? ht

theorem ofProgram_cut (h : ofProgram p = .ok c) : ofProgram (p.cut n) = .ok (c.cut n) := by
  have hc := ofProgram_eq_ok_iff.mp h
  have hlength : (c.cut n).length = ((p.cut n).stimuli.head?.map Trace.length).getD 0 := by
    rw [show (c.cut n).length = min n c.length from rfl, hc.length, Program.cut]
    cases p.stimuli <;> simp
  refine ofProgram_eq_ok_iff.mpr ⟨hc.name, hc.inputs, hc.outputs, hc.latches, hc.definitions,
    hc.updates, congrArg _ hc.stimuli, hlength, ?_⟩
  rw [show (c.cut n).recorded = c.recorded.map (Trace.cut n) from rfl, hc.recorded]
  simp [unsetOutputs, cut]

theorem Shortens.driving_run (h : Shortens n c d) (ht : t < n) (env : Environment) :
    (d.driving t).run d.inputs env = (c.driving t).run c.inputs env := by
  rw [← h.inputs]
  refine Outcome.each_congr (fun e x hx => ?_) env
  simp only [Assignment.step, driving, h.driven t ht x hx]

theorem Shortens.cycle_eq (h : Shortens n c d) (ht : t < n) (env : Environment) :
    d.cycle t env = c.cycle t env := by
  simp only [cycle, prepare, h.driving_run ht, ← h.latches, ← h.updates]

end Circuit

namespace Simulation

open Circuit (Shortens)

variable {n t : ℕ} {c d : Circuit} {s s' : Simulation}

def shorten (n : ℕ) (d : Circuit) (s : Simulation) : Simulation :=
  ⟨d, s.environment, s.phase, s.outputs.map (Trace.cut n)⟩

theorem start_shorten (h : Shortens n c d) : start d = (start c).shorten n d := by
  simp [start, shorten, Circuit.unsetOutputs, ← h.outputs, ← h.definitions, h.length,
    Function.comp_def]

theorem cleared_shorten (h : Shortens n s.circuit d) :
    (s.shorten n d).cleared = s.cleared.shorten n d := by
  rw [cleared, cleared, shorten, start_shorten h]
  rfl

theorem within_shorten (o : Outcome Environment) :
    (s.shorten n d).within o = (s.within o).map (shorten n d) := rfl

theorem conclude_shorten (ht : t < n) :
    (s.shorten n d).conclude t = (s.conclude t).map (shorten n d) := by
  have hr : Outcome.mapEach (Trace.record s.environment t) (s.outputs.map (Trace.cut n)) =
      (Outcome.mapEach (Trace.record s.environment t) s.outputs).map (List.map (Trace.cut n)) :=
    Outcome.mapEach_map fun tr _ => Trace.record_cut ht s.environment
  have hrecord : (s.shorten n d).record t = (s.record t).map (shorten n d) := by
    rw [record, shorten, hr]
    rfl
  rw [conclude, conclude, hrecord, Outcome.map_mapFault]
  exact Outcome.map_andThen fun _ _ => rfl

theorem drive_shorten (h : Shortens n s.circuit d) (ht : t < n) :
    (s.shorten n d).drive t = (s.drive t).map (shorten n d) := by
  have hrun : ((s.shorten n d).circuit.driving t).run (s.shorten n d).circuit.inputs
      (s.shorten n d).environment =
      (s.circuit.driving t).run s.circuit.inputs s.environment := h.driving_run ht s.environment
  rw [drive_eq, drive_eq, hrun, within_shorten]

theorem advance_shorten (h : Shortens n s.circuit d) (ht : t + 1 < n) :
    (s.shorten n d).advance (t + 1) = (s.advance (t + 1)).map (shorten n d) := by
  have hcycle : (s.shorten n d).circuit.cycle (t + 1) (s.shorten n d).environment =
      s.circuit.cycle (t + 1) s.environment := h.cycle_eq ht s.environment
  rw [advance_eq, advance_eq, hcycle, within_shorten]
  exact Outcome.map_andThen fun _ _ => conclude_shorten ht

theorem reset_shorten (h : Shortens n s.circuit d) (hn : 0 < n) :
    (s.shorten n d).reset = s.reset.map (shorten n d) := by
  have hlength : (s.shorten n d).circuit.length = 0 ↔ s.circuit.length = 0 := by
    rw [show (s.shorten n d).circuit.length = min n s.circuit.length from h.length]
    omega
  rw [reset_eq, reset_eq]
  simp only [hlength, cleared_shorten h]
  split
  · rw [drive_shorten (s := s.cleared) h hn]
    exact Outcome.map_andThen fun _ _ => rfl
  · have hcycle : (s.shorten n d).circuit.cycle 0 (s.cleared.shorten n d).environment =
        s.circuit.cycle 0 s.cleared.environment := h.cycle_eq hn _
    rw [hcycle, within_shorten]
    exact Outcome.map_andThen fun _ _ => conclude_shorten hn

/-- As long as the shorter circuit has a next cycle, it is clocked like the longer one. -/
theorem clock_shorten (h : Shortens n s.circuit d) (hn : 0 < n)
    (hp : ∀ t, s.phase = .cycle t → t + 1 < n) :
    (s.shorten n d).clock = s.clock.map (shorten n d) := by
  cases hs : s.phase with
  | uninitialized =>
    rw [clock_of_uninitialized hs, clock_of_uninitialized (s := s.shorten n d) hs]
    exact reset_shorten h hn
  | cycle t =>
    have ht := hp t hs
    have hlength : (s.shorten n d).circuit.length = min n s.circuit.length := h.length
    -- Where the longer circuit has no next cycle, the shorter one has none either.
    by_cases hl : t + 1 < s.circuit.length
    · rw [clock_of_cycle hs hl, clock_of_cycle (s := s.shorten n d) hs (by omega)]
      exact advance_shorten h ht
    · rw [clock_of_last hs (by omega), clock_of_last (s := s.shorten n d) hs (by omega)]
      rfl
  | done =>
    rw [clock_of_done hs, clock_of_done (s := s.shorten n d) hs]
    rfl

theorem clock_afterClocks (h : Shortens n c d) {k : ℕ} (hk : k < n)
    (hs : afterClocks d k = (afterClocks c k).shorten n d) :
    (afterClocks d k).clock = (afterClocks c k).clock.map (shorten n d) := by
  have hc : Shortens n (afterClocks c k).circuit d := by
    rw [afterClocks, (coherent_after c _).circuit]
    exact h
  rw [hs]
  refine clock_shorten hc (by omega) fun t ht => ?_
  have := lt_of_afterClocks ht
  omega

theorem afterClocks_shorten (h : Shortens n c d) {k : ℕ} (hk : k ≤ n) :
    afterClocks d k = (afterClocks c k).shorten n d := by
  induction k with
  | zero => exact start_shorten h
  | succ k ih =>
    rw [afterClocks_succ, afterClocks_succ, clock_afterClocks h (by omega) (ih (by omega))]
    rfl

theorem clock_afterClocks_shorten (h : Shortens n c d) {k : ℕ} (hk : k < n) :
    (afterClocks d k).clock = (afterClocks c k).clock.map (shorten n d) :=
  clock_afterClocks h hk (afterClocks_shorten h hk.le)

end Simulation

namespace Circuit

open Simulation (stateAt afterClocks)

variable {n : ℕ} {c c' : Circuit}

theorem eq_of_simulate (h : c.simulate = .done c') :
    c' = { c with
      recorded := c.outputs.map (fun x => .tabulate x c.length
        fun t => (stateAt c t).environment.values[x]?) } := by
  obtain ⟨s, hs, hp, rfl⟩ := simulate_eq_done h
  rw [hs.outputs_of_done hp]

theorem simulate_cut_fault (hn : 1 ≤ n) (hN : n ≤ c.length) (h : c.simulate = .done c') :
    (c.cut n).simulate.fault = none := by
  obtain ⟨hall, -⟩ := simulate_eq_done_iff_clocks.mp h
  have hs := shortens_cut n c
  have hlength : (c.cut n).length = n := min_eq_left hN
  refine (Outcome.eq_done_iff.mp (simulate_eq_done_iff_clocks.mpr ⟨fun k hk => ?_, rfl⟩)).1
  by_cases hkn : k < n
  · rw [Simulation.clock_afterClocks_shorten hs hkn]
    exact hall k (by omega)
  · -- The last cycle of the shorter circuit is followed by the clock that ends its simulation.
    obtain ⟨t, rfl⟩ : ∃ t, n = t + 1 := ⟨n - 1, by omega⟩
    obtain rfl : k = t + 1 := by omega
    have hp : (afterClocks (c.cut (t + 1)) (t + 1)).phase = .cycle t := by
      rw [Simulation.afterClocks_shorten hs le_rfl]
      exact Simulation.phase_afterClocks (fun k hk => hall k (by omega)) (by omega)
    have hcircuit : (afterClocks (c.cut (t + 1)) (t + 1)).circuit = c.cut (t + 1) :=
      (Simulation.coherent_after _ _).circuit
    rw [Simulation.clock_of_last hp (by rw [hcircuit, hlength])]
    rfl

/-- Simulating the first cycles gives the first cycles of the simulation. A clock has the same fault
or none in the shorter circuit, and leads to the same state. -/
theorem simulate_cut (c : Circuit) (hn : 1 ≤ n) (hN : n ≤ c.length) :
    (∀ p, ofProgram p = .ok c → ofProgram (p.cut n) = .ok (c.cut n)) ∧
      (∀ k < n, (afterClocks (c.cut n) k).clock.fault = (afterClocks c k).clock.fault) ∧
      (∀ k ≤ n, (afterClocks (c.cut n) k).phase = (afterClocks c k).phase ∧
        (afterClocks (c.cut n) k).environment = (afterClocks c k).environment ∧
        (afterClocks (c.cut n) k).outputs = (afterClocks c k).outputs.map (Trace.cut n)) ∧
      ∀ c', c.simulate = .done c' → (c.cut n).simulate = .done (c'.cut n) := by
  have hs := shortens_cut n c
  refine ⟨fun p hp => ofProgram_cut hp, fun k hk => ?_, fun k hk => ?_, fun c' h => ?_⟩
  · rw [Simulation.clock_afterClocks_shorten hs hk]
    rfl
  · rw [Simulation.afterClocks_shorten hs hk]
    exact ⟨rfl, rfl, rfl⟩
  · -- The cells of both results are values in states that the two simulations share.
    have hdone := Outcome.eq_done_of_fault (simulate_cut_fault hn hN h)
    rw [hdone, Outcome.done_inj, eq_of_simulate hdone, eq_of_simulate h]
    have hlength : (c.cut n).length = n := min_eq_left hN
    have hrecorded : ∀ x, Trace.tabulate x (c.cut n).length
        (fun t => (stateAt (c.cut n) t).environment.values[x]?) =
        (Trace.tabulate x c.length fun t => (stateAt c t).environment.values[x]?).cut n := by
      intro x
      rw [Trace.cut_tabulate hN, hlength]
      refine congrArg (Trace.mk x) (List.map_congr_left fun t ht => ?_)
      have hstate : stateAt (c.cut n) t = (stateAt c t).shorten n (c.cut n) :=
        Simulation.afterClocks_shorten hs (List.mem_range.mp ht)
      rw [hstate]
      rfl
    simp only [hrecorded]
    simp [cut, Function.comp_def]

def delay : Circuit where
  name := "delay"
  inputs := ["A"]
  outputs := ["B"]
  latches := ["L"]
  definitions := .empty
  updates := [⟨"L", .signal "A"⟩, ⟨"B", .signal "L'"⟩]
  stimuli := [.ofValues "A" [true, false, true]]
  recorded := [.unset "B" 3]
  length := 3
  length_eq := by decide

theorem simulate_cut_delay :
    delay.simulate = .done { delay with recorded := [.ofValues "B" [false, true, false]] } ∧
      (delay.cut 2).simulate =
        .done { delay.cut 2 with recorded := [.ofValues "B" [false, true]] } := by
  have h : delay.simulate =
      .done { delay with recorded := [.ofValues "B" [false, true, false]] } := rfl
  obtain ⟨-, -, -, done⟩ := simulate_cut (n := 2) delay (by decide) (by decide)
  exact ⟨h, done _ h⟩

end Circuit

end SyncCircuit
