import SyncCircuit.Proofs.Nesting
import SyncCircuit.Proofs.Recovery

/-!
What stops a simulation: an input without a value, or in an update, a latch or an output a name that
means nothing, a call that does not fit its definition, or one that never comes back. Whatever has
been called before, the fault of a call is that of the cycle which was to come.
-/

namespace SyncCircuit

/-- A name that means nothing, or a call that does not fit its definition. -/
inductive Fault.OfNames : Fault → Prop where
  | unboundSignal (x : Name) : OfNames (.unboundSignal x)
  | undefinedFunction (f : Name) : OfNames (.undefinedFunction f)
  | arityMismatch (f : Name) (expected found : ℕ) : OfNames (.arityMismatch f expected found)

theorem Fault.OfEvaluation.ofNames {e : Fault} (h : e.OfEvaluation) :
    e.OfNames ∨ e = .endlessCall := by
  cases e with
  | unboundSignal x => exact Or.inl (.unboundSignal x)
  | undefinedFunction f => exact Or.inl (.undefinedFunction f)
  | arityMismatch f expected found => exact Or.inl (.arityMismatch f expected found)
  | endlessCall => exact Or.inr rfl
  | _ => exact h.elim

theorem Fault.OfNames.root {e : Fault} (h : e.OfNames) (t : ℕ) : (atCycle t e).root = e := by
  cases h <;> rfl

/-- The cycle that has not been completed yet and comes next. -/
def Phase.pending : Phase → Option ℕ
  | .uninitialized => some 0
  | .cycle t => some (t + 1)
  | .done => none

namespace Circuit

variable {c : Circuit} {t : ℕ} {env : Environment} {f : Fault}

/-- What stops cycle `t` of a circuit, where `env` is what the cycle has made of the signals. -/
inductive Obstructed (c : Circuit) (t : ℕ) (env : Environment) : Fault → Prop where
  | input {x : Name} : c.inputs.find? (c.stimulusAt · t = none) = some x →
      Obstructed c t env (.missingInput x t)
  | names {e : Fault} : e.OfNames → Obstructed c t env (.atCycle t e)
  | endless {u : Update} : u ∈ c.updates → u.value.Endless env →
      Obstructed c t env (.atCycle t .endlessCall)

theorem drive_obstructed {before : Environment}
    (h : ((c.driving t).run c.inputs before).fault = some f) : c.Obstructed t env f := by
  rw [driving_run_fault] at h
  obtain ⟨x, hx, rfl⟩ := Option.map_eq_some_iff.mp h
  exact .input hx

theorem latch_obstructed {before : Environment}
    (h : (((latching t).run c.latches before).mapFault (.during t)).fault = some f) :
    c.Obstructed t env f := by
  obtain ⟨e, he, rfl⟩ := Option.map_eq_some_iff.mp h
  obtain ⟨x, _, hx⟩ := Assignment.run_stops he
  simp only [latching] at hx
  split at hx
  · cases hx
  · obtain ⟨_, rfl⟩ := Environment.get_eq_error.mp hx
    exact .names (.unboundSignal x)

theorem update_obstructed {before : Environment}
    (h : ((updating.run c.updates before).mapFault (.during t)).fault = some f) :
    c.Obstructed t (updating.run c.updates before).state f := by
  obtain ⟨e, he, rfl⟩ := Option.map_eq_some_iff.mp h
  obtain ⟨u, hu, hv⟩ := Assignment.run_stops he
  have heval := Expr.eval_fault hv
  rw [heval.during]
  rcases heval.ofNames with hnames | rfl
  · exact .names hnames
  · exact .endless hu (Expr.eval_eq_endlessCall_iff.mp hv)

theorem cycle_obstructed (h : (c.cycle t env).fault = some f) :
    c.Obstructed t (c.cycle t env).state f := by
  rcases Outcome.andThen_fault.mp h with hp | ⟨latched, hl, hu⟩
  · rcases Outcome.andThen_fault.mp hp with hd | ⟨driven, _, hl⟩
    · exact drive_obstructed hd
    · exact latch_obstructed hl
  · have hcycle : (c.cycle t env).state = (updating.run c.updates latched).state := by
      rw [cycle, hl]
      rfl
    rw [hcycle]
    exact update_obstructed hu

end Circuit

namespace Simulation

open Circuit (Obstructed)

variable {c : Circuit} {s : Simulation} {t : ℕ} {f : Fault}

theorem conclude_obstructed (hl : ∀ tr ∈ s.outputs, t < tr.length) {env : Environment}
    (h : (s.conclude t).fault = some f) : c.Obstructed t env f := by
  rcases Outcome.andThen_fault.mp h with h | ⟨_, _, h⟩
  · obtain ⟨e, he, rfl⟩ := Option.map_eq_some_iff.mp h
    refine Outcome.mapEach_fault (P := fun e => c.Obstructed t env (e.during t)) ?_ he
    intro tr htr e he
    rw [Trace.record_fault (hl tr htr) he]
    exact .names (.unboundSignal tr.signal)
  · cases h

theorem reset_obstructed (h : s.circuit = c) (hf : s.reset.fault = some f) :
    c.Obstructed 0 s.reset.state.environment f := by
  subst h
  rw [reset_eq] at hf ⊢
  split at hf
  · next hl =>
    rcases Outcome.andThen_fault.mp hf with hd | ⟨_, _, hd⟩
    · rw [drive_eq] at hd
      exact Circuit.drive_obstructed hd
    · cases hd
  · next hl =>
    rw [if_neg hl]
    rcases Outcome.andThen_fault.mp hf with hc | ⟨r, hr, hc⟩
    · rw [Outcome.andThen_of_fault hc]
      exact Circuit.cycle_obstructed hc
    · obtain ⟨env, _, rfl⟩ := within_eq_done.mp hr
      refine conclude_obstructed (fun tr htr => ?_) hc
      rw [(shaped_cleared rfl).lengths tr htr]
      exact Nat.pos_of_ne_zero hl

theorem clock_obstructed (h : Coherent c s) (hf : s.clock.fault = some f) :
    ∃ t, s.phase.pending = some t ∧ (t = 0 ∨ t < c.length) ∧
      c.Obstructed t s.clock.state.environment f := by
  rcases phase_of_clock_fault h hf with hp | ⟨t, hp, ht⟩
  · rw [clock_of_uninitialized hp] at hf ⊢
    exact ⟨0, by rw [hp]; rfl, Or.inl rfl, reset_obstructed h.circuit hf⟩
  · have hc := clock_fault_of_cycle h hp ht
    rw [hf] at hc
    rw [clock_of_cycle_fault h hp ht hc.symm]
    exact ⟨t + 1, by rw [hp]; rfl, Or.inr ht, Circuit.cycle_obstructed hc.symm⟩

theorem exists_clock_of_perform {calls : List Call} {call : Call}
    (hf : ((after c calls).perform call).fault = some f) :
    ∃ earlier, (after c earlier).clock = (after c calls).perform call := by
  by_cases hcall : call = .reset
  · subst hcall
    have hp := (reset_after c calls).2.1 f hf
    exact ⟨calls, clock_of_uninitialized hp⟩
  · obtain ⟨k, hk⟩ := exists_clock_of_fault hcall hf
    exact ⟨calls ++ .replicate k .clock, by rw [after_append, hk]⟩

theorem perform_obstructed {calls : List Call} {call : Call}
    (hf : ((after c calls).perform call).fault = some f) :
    ∃ t, ((after c calls).perform call).state.phase.pending = some t ∧
      (t = 0 ∨ t < c.length ∧ (start c).reset.fault = none) ∧
      c.Obstructed t ((after c calls).perform call).state.environment f := by
  obtain ⟨earlier, he⟩ := exists_clock_of_perform hf
  rw [← he] at hf ⊢
  have h := coherent_after c earlier
  obtain ⟨t, ht, hlt, ho⟩ := clock_obstructed h hf
  refine ⟨t, ?_, ?_, ho⟩
  · rw [h.responds.clock_fault f hf]
    exact ht
  · rcases hlt with rfl | hlt
    · exact Or.inl rfl
    · by_cases hp : (after c earlier).phase = .uninitialized
      · rw [hp] at ht
        exact Or.inl (Option.some.inj ht).symm
      · exact Or.inr ⟨hlt, h.restarts hp⟩

theorem reset_undriven {x : Name} (hx : c.inputs.find? (c.stimulusAt · 0 = none) = some x) :
    (start c).reset.fault = some (.missingInput x 0) := by
  have hd : ((start c).cleared.drive 0).fault = some (.missingInput x 0) := by
    have hrun := Circuit.driving_run_fault (c := c) (t := 0) c.inputs (start c).cleared.environment
    rw [hx] at hrun
    rw [drive_eq]
    exact hrun
  rw [reset, Outcome.andThen_of_fault hd, hd]

theorem perform_undriven {x : Name} (hx : c.inputs.find? (c.stimulusAt · 0 = none) = some x)
    (calls : List Call) (call : Call) :
    ((after c calls).perform call).fault = some (.missingInput x 0) := by
  have hreset : (after c calls).reset.fault = some (.missingInput x 0) := by
    rw [(coherent_after c calls).reset_eq_start, reset_undriven hx]
  by_cases hcall : call = .reset
  · rw [hcall]
    exact hreset
  · have hp := (reset_after c calls).2.1 _ hreset
    have hclock : (after c calls).clock.fault = some (.missingInput x 0) := by
      rw [clock_of_uninitialized hp, hreset]
    rw [perform_of_clock_fault hcall hclock, hclock]

end Simulation

end SyncCircuit
