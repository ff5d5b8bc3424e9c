import SyncCircuit.Proofs.Cycle

/-!
Histories of a simulation: any sequence of resets, clocks and runs, with those that fail. The phase
tells at every point which cells of the outputs are set and which signals are bound. Recording
cannot fail after the first cycle, because bound names never get lost and every output is one.
-/

namespace SyncCircuit

inductive Call where
  | reset
  | clock
  | run
deriving DecidableEq

namespace Simulation

def perform (s : Simulation) : Call → Outcome Simulation
  | .reset => s.reset
  | .clock => s.clock
  | .run => s.run

/-- Where the calls lead, each made in the state that the one before left behind. -/
def after (c : Circuit) (calls : List Call) : Simulation :=
  calls.foldl (fun s call => (s.perform call).state) (start c)

/-- What holds of a simulation in every phase. -/
structure Shaped (c : Circuit) (s : Simulation) : Prop where
  circuit : s.circuit = c
  definitions : s.environment.definitions = c.definitions
  names : s.outputs.map Trace.signal = c.outputs
  lengths : ∀ tr ∈ s.outputs, tr.length = c.length
  bound : ∀ x, s.environment.binds x → x ∈ c.signals

/-- What the phase tells. A simulation that has left the first phase can be reset. -/
structure Coherent (c : Circuit) (s : Simulation) : Prop extends Shaped c s where
  uninitialized : s.phase = .uninitialized → ∀ tr ∈ s.outputs, ∀ i, 0 < i → tr.get? i = none
  cycle : ∀ t, s.phase = .cycle t →
    t < c.length ∧ ∀ tr ∈ s.outputs, ∀ i, (tr.get? i).isSome ↔ i ≤ t
  done : s.phase = .done → ∀ tr ∈ s.outputs, ∀ i < c.length, (tr.get? i).isSome
  settled : s.phase ≠ .uninitialized → 0 < c.length → ∀ x ∈ c.signals, s.environment.binds x
  observed : s.phase ≠ .uninitialized → 0 < c.length → ∀ x ∈ c.outputs, x ∈ c.signals
  restarts : s.phase ≠ .uninitialized → (start c).reset.fault = none

variable {c : Circuit} {s s' : Simulation} {t : ℕ}

theorem sameBut_names {ts ts' : List Trace} (h : List.Forall₂ (Trace.SameBut t) ts ts') :
    ts'.map Trace.signal = ts.map Trace.signal := by
  induction h with
  | nil => rfl
  | cons hab _ ih => simp only [List.map_cons, hab.signal, ih]

theorem forall₂_right {α β : Type} {R : α → β → Prop} {as : List α} {bs : List β}
    (h : List.Forall₂ R as bs) {b : β} (hb : b ∈ bs) : ∃ a ∈ as, R a b := by
  induction h with
  | nil => simp at hb
  | cons hab _ ih =>
    rcases List.mem_cons.mp hb with rfl | hb
    · exact ⟨_, List.mem_cons_self, hab⟩
    · obtain ⟨a, ha, hr⟩ := ih hb
      exact ⟨a, List.mem_cons_of_mem _ ha, hr⟩

theorem unsetOutputs_get? {tr : Trace} (h : tr ∈ c.unsetOutputs) (i : ℕ) : tr.get? i = none := by
  obtain ⟨x, _, rfl⟩ := List.mem_map.mp h
  exact Trace.unset_get? x c.length i

theorem Shaped.part (h : Shaped c s) (hp : PartOfCycle t s s') : Shaped c s' where
  circuit := hp.circuit.trans h.circuit
  definitions := hp.environment.definitions.trans h.definitions
  names := (sameBut_names hp.outputs).trans h.names
  lengths := by
    intro tr htr
    obtain ⟨tr₀, h₀, hb⟩ := forall₂_right hp.outputs htr
    exact hb.length.trans (h.lengths tr₀ h₀)
  bound := by
    intro x hx
    rcases hp.environment.bound hx with hx | hx
    · exact h.bound x hx
    · exact h.circuit ▸ hx

theorem shaped_cleared (h : s.circuit = c) : Shaped c s.cleared := by
  subst h
  refine ⟨rfl, rfl, ?_, ?_, ?_⟩
  · simp [Circuit.unsetOutputs, Function.comp_def]
  · intro tr htr
    obtain ⟨x, _, rfl⟩ := List.mem_map.mp htr
    exact Trace.unset_length x _
  · intro x hx
    simp [Environment.binds_eq_isSome] at hx

theorem coherent_start (c : Circuit) : Coherent c (start c) where
  toShaped := shaped_cleared (s := start c) rfl
  uninitialized _ _ h i _ := unsetOutputs_get? h i
  cycle _ h := by cases h
  done h := by cases h
  settled h := (h rfl).elim
  observed h := (h rfl).elim
  restarts h := (h rfl).elim

/-- Whether a reset succeeds, and with which result, is up to the circuit alone. -/
theorem reset_eq_done_iff : s.reset = .done s' ↔ (start s.circuit).reset = .done s' := by
  by_cases h : s.circuit.length = 0
  · rw [reset_eq_done_of_length_eq_zero h,
      reset_eq_done_of_length_eq_zero (s := start s.circuit) h]
    rfl
  · have hp := Nat.pos_of_ne_zero h
    rw [reset_eq_done_of_length_pos hp, reset_eq_done_of_length_pos (s := start s.circuit) hp]
    rfl

theorem isSome_of_mapEach_record {env : Environment} {ts ts' : List Trace}
    (h : Outcome.mapEach (Trace.record env t) ts = .done ts') {tr : Trace} (htr : tr ∈ ts') :
    ∃ tr₀ ∈ ts, ∀ i, (tr.get? i).isSome ↔ i = t ∨ (tr₀.get? i).isSome := by
  obtain ⟨tr₀, h₀, hr⟩ := forall₂_right (Outcome.mapEach_eq_done.mp h) htr
  refine ⟨tr₀, h₀, fun i => ?_⟩
  by_cases hi : i = t
  · subst i
    obtain ⟨b, hb, _⟩ := Trace.record_eq_ok.mp hr
    simp [Trace.get?_of_record hr, hb]
  · rw [(Trace.sameBut_of_record hr).cells i hi]
    simp [hi]

theorem get?_of_mapEach_record {env : Environment} {ts ts' : List Trace}
    (h : Outcome.mapEach (Trace.record env t) ts = .done ts') {tr : Trace} (htr : tr ∈ ts') :
    tr.get? t = env.values[tr.signal]? ∧ env.binds tr.signal := by
  obtain ⟨tr₀, _, hr⟩ := forall₂_right (Outcome.mapEach_eq_done.mp h) htr
  obtain ⟨b, hb, _⟩ := Trace.record_eq_ok.mp hr
  rw [(Trace.sameBut_of_record hr).signal]
  exact ⟨Trace.get?_of_record hr, Environment.binds_iff.mpr ⟨b, hb⟩⟩

theorem coherent_of_reset (hc : s.circuit = c) (h : s.reset = .done s') : Coherent c s' := by
  have hs : Shaped c s' := by
    have hp := reset_part s
    rw [h] at hp
    exact (shaped_cleared hc).part hp
  have restarts : (start c).reset.fault = none := by
    rw [reset_eq_done_iff, hc] at h
    rw [h]
    rfl
  subst hc
  by_cases hl : s.circuit.length = 0
  · obtain ⟨env, _, rfl⟩ := (reset_eq_done_of_length_eq_zero hl).mp h
    refine ⟨hs, nofun, nofun, ?_, ?_, ?_, fun _ => restarts⟩
    · intro _ _ _ i hi
      omega
    · intro _ hpos
      omega
    · intro _ hpos
      omega
  · have hpos := Nat.pos_of_ne_zero hl
    obtain ⟨env, ts, he, hts, rfl⟩ := (reset_eq_done_of_length_pos hpos).mp h
    refine ⟨hs, nofun, ?_, nofun, fun _ _ _ hx => he.binds hx, ?_, fun _ => restarts⟩
    · intro t ht
      obtain rfl : 0 = t := Phase.cycle.inj ht
      refine ⟨hpos, fun tr htr i => ?_⟩
      obtain ⟨tr₀, h₀, hi⟩ := isSome_of_mapEach_record hts htr
      rw [hi, unsetOutputs_get? h₀]
      simp
    · intro _ _ x hx
      rw [← hs.names] at hx
      obtain ⟨tr, htr, rfl⟩ := List.mem_map.mp hx
      exact hs.bound _ (get?_of_mapEach_record hts htr).2

/-- A reset that fails does so in the first phase only, where it has set no cell but the first. -/
theorem coherent_reset (h : Coherent c s) : Coherent c s.reset.state := by
  cases hf : s.reset.fault with
  | none => exact coherent_of_reset h.circuit (Outcome.eq_done_of_fault hf)
  | some f =>
    have hp := (reset_stops s f hf).1
    have hu : s.phase = .uninitialized := by
      by_contra hn
      have hr := Outcome.eq_done_of_fault (h.restarts hn)
      rw [← h.circuit, ← reset_eq_done_iff] at hr
      rw [hr] at hf
      cases hf
    rw [hu] at hp
    have part := reset_part s
    refine ⟨(shaped_cleared h.circuit).part part, ?_, ?_, ?_, fun hn => (hn hp).elim,
      fun hn => (hn hp).elim, fun hn => (hn hp).elim⟩
    · intro _ tr htr i hi
      obtain ⟨tr₀, h₀, hb⟩ := forall₂_right part.outputs htr
      rw [hb.cells i (by omega)]
      exact unsetOutputs_get? h₀ i
    · intro t ht
      rw [hp] at ht
      cases ht
    · intro hd
      rw [hp] at hd
      cases hd

theorem Coherent.recordable (h : Coherent c s) (hp : s.phase = .cycle t) (ht : t + 1 < c.length) :
    ∀ tr ∈ s.outputs, s.environment.binds tr.signal ∧ t + 1 < tr.length := by
  intro tr htr
  have hne : s.phase ≠ .uninitialized := by simp [hp]
  have ho : tr.signal ∈ c.outputs := h.names ▸ List.mem_map_of_mem htr
  have hx := h.observed hne (by omega) tr.signal ho
  exact ⟨h.settled hne (by omega) tr.signal hx, (h.lengths tr htr).symm ▸ ht⟩

theorem coherent_advance (h : Coherent c s) (hp : s.phase = .cycle t) (ht : t + 1 < c.length) :
    Coherent c (s.advance (t + 1)).state := by
  have hne : s.phase ≠ .uninitialized := by simp [hp]
  have hs := h.toShaped.part (advance_part (t + 1) s)
  cases hf : (s.advance (t + 1)).fault with
  | none =>
    obtain ⟨env, ts, he, hts, heq⟩ := advance_eq_done.mp (Outcome.eq_done_of_fault hf)
    rw [heq] at hs ⊢
    refine ⟨hs, nofun, ?_, nofun, ?_, fun _ => h.observed hne, fun _ => h.restarts hne⟩
    · intro u hu
      obtain rfl : t + 1 = u := Phase.cycle.inj hu
      refine ⟨ht, fun tr htr i => ?_⟩
      obtain ⟨tr₀, h₀, hi⟩ := isSome_of_mapEach_record hts htr
      rw [hi, (h.cycle t hp).2 tr₀ h₀]
      omega
    · exact fun _ _ _ hx => he.binds (h.circuit.symm ▸ hx)
  | some f =>
    have hr := h.recordable hp ht
    have hphase := (advance_stops (fun tr htr => (hr tr htr).2) f hf).1
    have hout := advance_keepsOutputs hr f hf
    have grows := (advance_part (t + 1) s).environment.grows
    refine ⟨hs, ?_, ?_, ?_, ?_, ?_, ?_⟩
    · rw [hphase, hout]
      exact h.uninitialized
    · rw [hphase, hout]
      exact h.cycle
    · rw [hphase, hout]
      exact h.done
    · rw [hphase]
      exact fun hn hl x hx => grows x (h.settled hn hl x hx)
    · rw [hphase]
      exact h.observed
    · rw [hphase]
      exact h.restarts

theorem clock_of_uninitialized (hp : s.phase = .uninitialized) : s.clock = s.reset := by
  simp [clock, hp]

theorem clock_of_last (hp : s.phase = .cycle t) (ht : s.circuit.length ≤ t + 1) :
    s.clock = .done { s with phase := .done } := by
  simp [clock, hp, ht]

theorem clock_of_cycle (hp : s.phase = .cycle t) (ht : t + 1 < s.circuit.length) :
    s.clock = s.advance (t + 1) := by
  simp [clock, hp, Nat.not_le.mpr ht]

theorem clock_of_done (hp : s.phase = .done) : s.clock = .done s := by
  simp [clock, hp]

theorem Coherent.finish (h : Coherent c s) (hp : s.phase = .cycle t) (ht : c.length ≤ t + 1) :
    Coherent c { s with phase := .done } := by
  have hne : s.phase ≠ .uninitialized := by simp [hp]
  refine ⟨⟨h.circuit, h.definitions, h.names, h.lengths, h.bound⟩, nofun, nofun, ?_,
    fun _ => h.settled hne, fun _ => h.observed hne, fun _ => h.restarts hne⟩
  intro _ tr htr i hi
  exact ((h.cycle t hp).2 tr htr i).mpr (by omega)

theorem coherent_clock (h : Coherent c s) : Coherent c s.clock.state := by
  cases hp : s.phase with
  | uninitialized =>
    rw [clock_of_uninitialized hp]
    exact coherent_reset h
  | cycle t =>
    by_cases ht : t + 1 < c.length
    · rw [clock_of_cycle hp (h.circuit.symm ▸ ht)]
      exact coherent_advance h hp ht
    · rw [clock_of_last hp (by rw [h.circuit]; omega)]
      exact h.finish hp (by omega)
  | done =>
    rw [clock_of_done hp]
    exact h

theorem Coherent.of_clock (h : Coherent c s) (hs : s.clock = .done s') : Coherent c s' := by
  have hc := coherent_clock h
  rwa [hs] at hc

theorem clocks_succ (n : ℕ) (s : Simulation) : clocks (n + 1) s = s.clock.andThen (clocks n) := by
  by_cases hp : s.phase = .done
  · cases n <;> simp [clocks, hp, clock_of_done hp]
  · simp [clocks, hp]

theorem coherent_clocks (n : ℕ) (h : Coherent c s) : Coherent c (clocks n s).state := by
  induction n generalizing s with
  | zero => exact h
  | succ n ih =>
    rw [clocks_succ]
    apply Outcome.andThen_cases (P := fun o => Coherent c o.state)
    · exact fun _ _ => coherent_clock h
    · exact fun _ hr => ih (h.of_clock hr)

theorem coherent_perform (h : Coherent c s) (call : Call) :
    Coherent c (s.perform call).state := by
  cases call with
  | reset => exact coherent_reset h
  | clock => exact coherent_clock h
  | run => exact coherent_clocks _ h

theorem coherent_after (c : Circuit) (calls : List Call) : Coherent c (after c calls) := by
  suffices aux : ∀ s, Coherent c s →
      Coherent c (calls.foldl (fun s call => (s.perform call).state) s) from
    aux (start c) (coherent_start c)
  induction calls with
  | nil => exact fun _ h => h
  | cons call calls ih => exact fun s h => ih _ (coherent_perform h call)

theorem clock_stops (h : Coherent c s) : ∃ t, StopsInCycle t s s.clock := by
  cases hp : s.phase with
  | uninitialized =>
    rw [clock_of_uninitialized hp]
    exact ⟨0, reset_stops s⟩
  | cycle t =>
    by_cases ht : t + 1 < c.length
    · rw [clock_of_cycle hp (h.circuit.symm ▸ ht)]
      exact ⟨t + 1, advance_stops fun tr htr => (h.recordable hp ht tr htr).2⟩
    · rw [clock_of_last hp (by rw [h.circuit]; omega)]
      exact ⟨t, fun f hf => by cases hf⟩
  | done =>
    rw [clock_of_done hp]
    exact ⟨0, fun f hf => by cases hf⟩

theorem clocks_fault (n : ℕ) (h : Coherent c s) {f : Fault} (hf : (clocks n s).fault = some f) :
    ∃ t, f.OfCycle t := by
  induction n generalizing s with
  | zero => cases hf
  | succ n ih =>
    rw [clocks_succ] at hf
    rcases Outcome.andThen_fault.mp hf with hf | ⟨r, hr, hf⟩
    · obtain ⟨t, ht⟩ := clock_stops h
      exact ⟨t, (ht f hf).2⟩
    · exact ih (h.of_clock hr) hf

theorem perform_fault (h : Coherent c s) {call : Call} {f : Fault}
    (hf : (s.perform call).fault = some f) : ∃ t, f.OfCycle t := by
  cases call with
  | reset => exact ⟨0, (reset_stops s f hf).2⟩
  | clock =>
    obtain ⟨t, ht⟩ := clock_stops h
    exact ⟨t, (ht f hf).2⟩
  | run => exact clocks_fault _ h hf

end Simulation

theorem Fault.OfCycle.root_ne_outsideTrace {t : ℕ} {f : Fault} (h : f.OfCycle t) (x : Name)
    (n : ℕ) : f.root ≠ .outsideTrace x n := by
  intro hr
  rcases h with ⟨y, rfl⟩ | ⟨e, he, rfl⟩
  · simp [Fault.root] at hr
  · cases e <;> first | exact he.elim | simp [Fault.root] at hr

def Circuit.firstPhase (c : Circuit) : Phase := if c.length = 0 then .done else .cycle 0

namespace Simulation

variable {c : Circuit} {s s' : Simulation} {t : ℕ}

/-- What calls do to the phase. No call records outside of a trace. -/
structure Responds (c : Circuit) (s : Simulation) : Prop where
  inside : ∀ call f, (s.perform call).fault = some f → ∀ x n, f.root ≠ .outsideTrace x n
  reset_fault : ∀ f, s.reset.fault = some f → s.reset.state.phase = s.phase
  clock_fault : ∀ f, s.clock.fault = some f → s.clock.state.phase = s.phase
  reset_done : s.reset.fault = none → s.reset.state.phase = c.firstPhase
  clock_uninitialized : s.phase = .uninitialized → s.clock.fault = none →
    s.clock.state.phase = c.firstPhase
  clock_cycle : ∀ t, s.phase = .cycle t → s.clock.fault = none →
    s.clock.state.phase = if t + 1 = c.length then .done else .cycle (t + 1)
  clock_done : s.phase = .done → s.clock = .done s

theorem phase_of_reset (hc : s.circuit = c) (h : s.reset = .done s') :
    s'.phase = c.firstPhase := by
  subst hc
  unfold Circuit.firstPhase
  split
  · next hl =>
    obtain ⟨env, _, rfl⟩ := (reset_eq_done_of_length_eq_zero hl).mp h
    rfl
  · next hl =>
    obtain ⟨env, ts, _, _, rfl⟩ := (reset_eq_done_of_length_pos (Nat.pos_of_ne_zero hl)).mp h
    rfl

theorem phase_of_clock (h : Coherent c s) (hp : s.phase = .cycle t) (hs : s.clock = .done s') :
    s'.phase = if t + 1 = c.length then .done else .cycle (t + 1) := by
  have hlt := (h.cycle t hp).1
  split
  · rw [clock_of_last hp (by rw [h.circuit]; omega)] at hs
    obtain rfl := Outcome.done_inj.mp hs
    rfl
  · rw [clock_of_cycle hp (by rw [h.circuit]; omega)] at hs
    obtain ⟨env, ts, _, _, rfl⟩ := advance_eq_done.mp hs
    rfl

theorem Coherent.responds (h : Coherent c s) : Responds c s where
  inside call f hf := by
    obtain ⟨t, ht⟩ := perform_fault h hf
    exact ht.root_ne_outsideTrace
  reset_fault f hf := (reset_stops s f hf).1
  clock_fault f hf := by
    obtain ⟨t, ht⟩ := clock_stops h
    exact (ht f hf).1
  reset_done hf := phase_of_reset h.circuit (Outcome.eq_done_of_fault hf)
  clock_uninitialized hp hf := by
    rw [clock_of_uninitialized hp] at hf ⊢
    exact phase_of_reset h.circuit (Outcome.eq_done_of_fault hf)
  clock_cycle t hp hf := phase_of_clock h hp (Outcome.eq_done_of_fault hf)
  clock_done := clock_of_done

/-- Whatever was called before, and whatever of it failed, the phase tells the cells that are set
and the signals that are bound, and the next call keeps to it. -/
theorem coherent_and_responds_after (c : Circuit) (calls : List Call) :
    Coherent c (after c calls) ∧ Responds c (after c calls) :=
  ⟨coherent_after c calls, (coherent_after c calls).responds⟩

end Simulation

end SyncCircuit
