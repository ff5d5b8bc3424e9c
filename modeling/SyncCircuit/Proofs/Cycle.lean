import SyncCircuit.Proofs.Assignment
import SyncCircuit.Proofs.Evaluation
import SyncCircuit.Proofs.Recording
import SyncCircuit.Simulation

/-!
What a cycle is made of. The inputs, the latch outputs and the targets of the updates are bound in
three passes, and then the outputs are recorded. A call that succeeds has done all of it; one that
fails has rebound some signals and set some cells of its cycle, but stays in the phase it was in.
-/

namespace SyncCircuit

open Environment (Rebinds AgreeOn)

theorem latchOutput_injective : Function.Injective latchOutput := by
  intro a b h
  exact (String.append_left_inj "'").mp h

namespace Circuit

def latchOutputs (c : Circuit) : List Name := c.latches.map latchOutput

def targets (c : Circuit) : List Name := c.updates.map Update.target

def signals (c : Circuit) : List Name := c.inputs ++ c.latchOutputs ++ c.targets

def stimulusAt (c : Circuit) (x : Name) (t : ℕ) : Option Bool := (c.stimulus? x).bind (·.get? t)

theorem mem_signals {c : Circuit} {x : Name} :
    x ∈ c.signals ↔ x ∈ c.inputs ∨ x ∈ c.latchOutputs ∨ x ∈ c.targets := by
  simp [signals]

def driving (c : Circuit) (t : ℕ) : Assignment Name where
  name := id
  value _ x :=
    match c.stimulusAt x t with
    | some b => .ok b
    | none => .error (.missingInput x t)

end Circuit

def latching (t : ℕ) : Assignment Name where
  name := latchOutput
  value env x := if t = 0 then .ok false else env.get x

def updating : Assignment Update where
  name := Update.target
  value env u := u.value.eval env

/-- The second environment is what a complete cycle makes of the first. -/
def Circuit.Settles (c : Circuit) (t : ℕ) (env env' : Environment) : Prop :=
  ∃ driven latched, (c.driving t).run c.inputs env = .done driven ∧
    (latching t).run c.latches driven = .done latched ∧
    updating.run c.updates latched = .done env'

theorem Circuit.driving_value {c : Circuit} {t : ℕ} {env : Environment} {x : Name} {b : Bool} :
    (c.driving t).value env x = .ok b ↔ c.stimulusAt x t = some b := by
  simp only [driving]
  cases c.stimulusAt x t <;> simp

theorem Circuit.driving_fault {c : Circuit} {t : ℕ} {env : Environment} {x : Name} {f : Fault}
    (h : (c.driving t).value env x = .error f) : f = .missingInput x t := by
  simp only [driving] at h
  cases hx : c.stimulusAt x t <;> simp_all

theorem Circuit.driving_names (c : Circuit) (t : ℕ) :
    c.inputs.map (c.driving t).name ⊆ c.signals := by
  intro x hx
  simp only [driving, List.map_id] at hx
  exact mem_signals.mpr (Or.inl hx)

theorem Circuit.latching_names (c : Circuit) (t : ℕ) :
    c.latches.map (latching t).name ⊆ c.signals :=
  fun _ hx => mem_signals.mpr (Or.inr (Or.inl hx))

theorem Circuit.updating_names (c : Circuit) : c.updates.map updating.name ⊆ c.signals :=
  fun _ hx => mem_signals.mpr (Or.inr (Or.inr hx))

theorem Circuit.Settles.rebinds {c : Circuit} {t : ℕ} {env env' : Environment}
    (h : c.Settles t env env') : Rebinds c.signals env env' := by
  obtain ⟨driven, latched, hd, hl, hu⟩ := h
  have h₁ := (Assignment.rebinds_of_run hd).mono (c.driving_names t)
  have h₂ := (Assignment.rebinds_of_run hl).mono (c.latching_names t)
  have h₃ := (Assignment.rebinds_of_run hu).mono c.updating_names
  exact h₁.trans (h₂.trans h₃)

theorem Circuit.Settles.binds {c : Circuit} {t : ℕ} {env env' : Environment}
    (h : c.Settles t env env') {x : Name} (hx : x ∈ c.signals) : env'.binds x := by
  obtain ⟨driven, latched, hd, hl, hu⟩ := h
  have grows := (Assignment.rebinds_of_run hu).grows
  rcases mem_signals.mp hx with hx | hx | hx
  · have hb : driven.binds x := Assignment.binds_of_run hd (by simpa [driving] using hx)
    exact grows x ((Assignment.rebinds_of_run hl).grows x hb)
  · exact grows x (Assignment.binds_of_run hl hx)
  · exact Assignment.binds_of_run hu hx

namespace Simulation

variable {s s' : Simulation} {t : ℕ}

theorem drive_eq (t : ℕ) (s : Simulation) :
    s.drive t = s.within ((s.circuit.driving t).run s.circuit.inputs s.environment) := by
  have hstep : driveInput s.circuit t = (s.circuit.driving t).step := by
    funext env x
    simp only [driveInput, Assignment.step, Circuit.driving, Circuit.stimulusAt]
    cases (s.circuit.stimulus? x).bind (·.get? t) <;> rfl
  rw [drive, hstep]
  rfl

theorem pass_eq (t : ℕ) (s : Simulation) :
    s.pass = s.within ((latching (t + 1)).run s.circuit.latches s.environment) := rfl

theorem run_latching_zero (s : Simulation) :
    (latching 0).run s.circuit.latches s.environment = .done s.clear.environment := by
  have aux : ∀ (latches : List Name) (env : Environment),
      (latching 0).run latches env =
        .done (env.bindAll (latches.map fun latch => (latchOutput latch, false))) := by
    intro latches
    induction latches with
    | nil => intro env; rfl
    | cons latch latches ih =>
      intro env
      exact Assignment.run_cons_eq_done.mpr ⟨false, rfl, ih _⟩
  exact aux _ _

theorem update_eq (s : Simulation) :
    s.update = s.within (updating.run s.circuit.updates s.environment) := rfl

theorem within_eq_done {o : Outcome Environment} :
    s.within o = .done s' ↔ ∃ env, o = .done env ∧ s' = { s with environment := env } := by
  rw [within, Outcome.map_eq_done]
  exact exists_congr fun env => and_congr_right fun _ => eq_comm

theorem settle_eq_done : s.settle t = .done s' ↔
    ∃ env ts, updating.run s.circuit.updates s.environment = .done env ∧
      Outcome.mapEach (Trace.record env t) s.outputs = .done ts ∧
      s' = ⟨s.circuit, env, .cycle t, ts⟩ := by
  simp only [settle, record, update_eq, Outcome.andThen_eq_done, Outcome.mapFault_eq_done,
    within_eq_done, Outcome.map_eq_done, Outcome.done_inj]
  constructor
  · rintro ⟨_, ⟨_, ⟨env, he, rfl⟩, ts, hts, rfl⟩, rfl⟩
    exact ⟨env, ts, he, hts, rfl⟩
  · rintro ⟨env, ts, he, hts, rfl⟩
    exact ⟨_, ⟨_, ⟨env, he, rfl⟩, ts, hts, rfl⟩, rfl⟩

theorem advance_eq_done : s.advance (t + 1) = .done s' ↔
    ∃ env ts, s.circuit.Settles (t + 1) s.environment env ∧
      Outcome.mapEach (Trace.record env (t + 1)) s.outputs = .done ts ∧
      s' = ⟨s.circuit, env, .cycle (t + 1), ts⟩ := by
  simp only [advance, drive_eq, pass_eq t, Outcome.andThen_eq_done, Outcome.mapFault_eq_done,
    within_eq_done, settle_eq_done]
  constructor
  · rintro ⟨_, ⟨driven, hd, rfl⟩, _, ⟨latched, hl, rfl⟩, env, ts, hu, hts, rfl⟩
    exact ⟨env, ts, ⟨driven, latched, hd, hl, hu⟩, hts, rfl⟩
  · rintro ⟨env, ts, ⟨driven, latched, hd, hl, hu⟩, hts, rfl⟩
    exact ⟨_, ⟨driven, hd, rfl⟩, _, ⟨latched, hl, rfl⟩, env, ts, hu, hts, rfl⟩

@[simp] theorem cleared_circuit (s : Simulation) : s.cleared.circuit = s.circuit := rfl

@[simp] theorem cleared_environment (s : Simulation) :
    s.cleared.environment = .empty s.circuit.definitions := rfl

@[simp] theorem cleared_outputs (s : Simulation) : s.cleared.outputs = s.circuit.unsetOutputs := rfl

theorem reset_eq_done_of_length_eq_zero (h : s.circuit.length = 0) : s.reset = .done s' ↔
    ∃ env, (s.circuit.driving 0).run s.circuit.inputs (.empty s.circuit.definitions) = .done env ∧
      s' = ⟨s.circuit, env, .done, s.circuit.unsetOutputs⟩ := by
  simp only [reset, drive_eq, Outcome.andThen_eq_done, within_eq_done]
  constructor
  · rintro ⟨_, ⟨env, he, rfl⟩, hs⟩
    simp only [cleared_circuit, h, ↓reduceIte, Outcome.done_inj] at hs
    exact ⟨env, he, hs.symm⟩
  · rintro ⟨env, he, rfl⟩
    refine ⟨_, ⟨env, he, rfl⟩, ?_⟩
    simp only [cleared_circuit, h, ↓reduceIte, cleared_outputs]

theorem reset_eq_done_of_length_pos (h : 0 < s.circuit.length) : s.reset = .done s' ↔
    ∃ env ts, s.circuit.Settles 0 (.empty s.circuit.definitions) env ∧
      Outcome.mapEach (Trace.record env 0) s.circuit.unsetOutputs = .done ts ∧
      s' = ⟨s.circuit, env, .cycle 0, ts⟩ := by
  have hne : s.circuit.length ≠ 0 := by omega
  simp only [reset, drive_eq, Outcome.andThen_eq_done, within_eq_done]
  constructor
  · rintro ⟨_, ⟨driven, hd, rfl⟩, hs⟩
    simp only [cleared_circuit, hne, ↓reduceIte, settle_eq_done] at hs
    obtain ⟨env, ts, hu, hts, rfl⟩ := hs
    have hl := run_latching_zero { s.cleared with environment := driven }
    exact ⟨env, ts, ⟨driven, _, hd, hl, hu⟩, hts, rfl⟩
  · rintro ⟨env, ts, ⟨driven, latched, hd, hl, hu⟩, hts, rfl⟩
    refine ⟨_, ⟨driven, hd, rfl⟩, ?_⟩
    simp only [cleared_circuit, hne, ↓reduceIte, settle_eq_done]
    have hc := run_latching_zero { s.cleared with environment := driven }
    obtain rfl := Outcome.done_inj.mp (hl.symm.trans hc)
    exact ⟨env, ts, hu, hts, rfl⟩

/-- What can have happened by any point within cycle `t`, a fault or not. -/
structure PartOfCycle (t : ℕ) (s s' : Simulation) : Prop where
  circuit : s'.circuit = s.circuit
  environment : Rebinds s.circuit.signals s.environment s'.environment
  outputs : List.Forall₂ (Trace.SameBut t) s.outputs s'.outputs

theorem sameBut_all_refl (t : ℕ) (ts : List Trace) : List.Forall₂ (Trace.SameBut t) ts ts :=
  List.forall₂_same.mpr fun tr _ => Trace.SameBut.refl t tr

theorem sameBut_all_trans {as bs cs : List Trace} (h : List.Forall₂ (Trace.SameBut t) as bs)
    (k : List.Forall₂ (Trace.SameBut t) bs cs) : List.Forall₂ (Trace.SameBut t) as cs := by
  induction h generalizing cs with
  | nil => exact k
  | cons hab _ ih =>
    cases k with
    | cons hbc k => exact .cons (hab.trans hbc) (ih k)

theorem PartOfCycle.trans {r : Simulation} (h : PartOfCycle t s s') (k : PartOfCycle t s' r) :
    PartOfCycle t s r := by
  have hk := k.environment
  rw [h.circuit] at hk
  exact ⟨k.circuit.trans h.circuit, h.environment.trans hk, sameBut_all_trans h.outputs k.outputs⟩

theorem within_part {o : Outcome Environment}
    (h : Rebinds s.circuit.signals s.environment o.state) : PartOfCycle t s (s.within o).state :=
  ⟨rfl, h, sameBut_all_refl t s.outputs⟩

theorem drive_part (t : ℕ) (s : Simulation) : PartOfCycle t s (s.drive t).state := by
  rw [drive_eq]
  exact within_part ((Assignment.run_rebinds _ _ _).mono (s.circuit.driving_names t))

theorem pass_part (t : ℕ) (s : Simulation) : PartOfCycle t s s.pass.state := by
  rw [pass_eq t]
  exact within_part ((Assignment.run_rebinds _ _ _).mono (s.circuit.latching_names _))

theorem clear_part (t : ℕ) (s : Simulation) : PartOfCycle t s s.clear := by
  have h := Assignment.rebinds_of_run (run_latching_zero s)
  exact ⟨rfl, h.mono (s.circuit.latching_names 0), sameBut_all_refl t s.outputs⟩

theorem update_part (t : ℕ) (s : Simulation) : PartOfCycle t s s.update.state := by
  rw [update_eq]
  exact within_part ((Assignment.run_rebinds _ _ _).mono s.circuit.updating_names)

theorem record_part (t : ℕ) (s : Simulation) : PartOfCycle t s (s.record t).state := by
  refine ⟨rfl, Rebinds.refl _ _, (Outcome.mapEach_state s.outputs).imp fun tr tr' h => ?_⟩
  rcases h with rfl | h
  · exact Trace.SameBut.refl t _
  · exact Trace.sameBut_of_record h

theorem settle_part (t : ℕ) (s : Simulation) : PartOfCycle t s (s.settle t).state := by
  have h : PartOfCycle t s (s.update.andThen (record t)).state := by
    apply Outcome.andThen_cases (P := fun o => PartOfCycle t s o.state)
    · exact fun _ _ => update_part t s
    · intro r hr
      have hu := update_part t s
      rw [hr] at hu
      exact hu.trans (record_part t r)
  apply Outcome.andThen_cases (P := fun o => PartOfCycle t s o.state)
  · exact fun _ _ => h
  · intro r hr
    rw [Outcome.mapFault_eq_done.mp hr] at h
    exact ⟨h.circuit, h.environment, h.outputs⟩

theorem advance_part (t : ℕ) (s : Simulation) : PartOfCycle t s (s.advance t).state := by
  apply Outcome.andThen_cases (P := fun o => PartOfCycle t s o.state)
  · exact fun _ _ => drive_part t s
  intro r hr
  have hd := drive_part t s
  rw [hr] at hd
  refine hd.trans ?_
  apply Outcome.andThen_cases (P := fun o => PartOfCycle t r o.state)
  · exact fun _ _ => pass_part t r
  intro q hq
  have hp := pass_part t r
  rw [Outcome.mapFault_eq_done.mp hq] at hp
  exact hp.trans (settle_part t q)

theorem reset_part (s : Simulation) : PartOfCycle 0 s.cleared s.reset.state := by
  apply Outcome.andThen_cases (P := fun o => PartOfCycle 0 s.cleared o.state)
  · exact fun _ _ => drive_part 0 s.cleared
  intro r hr
  have hd := drive_part 0 s.cleared
  rw [hr] at hd
  split
  · exact ⟨hd.circuit, hd.environment, hd.outputs⟩
  · exact hd.trans ((clear_part 0 r).trans (settle_part 0 r.clear))

end Simulation

def Fault.OfCycle (t : ℕ) (f : Fault) : Prop :=
  (∃ x, f = .missingInput x t) ∨ ∃ e : Fault, e.OfEvaluation ∧ f = .atCycle t e

theorem Fault.OfEvaluation.during {f : Fault} (h : f.OfEvaluation) (t : ℕ) :
    f.during t = .atCycle t f := by
  cases f <;> first | rfl | exact h.elim

namespace Simulation

variable {s s' : Simulation} {t : ℕ}

/-- A fault leaves the phase as it is, and is one that the cycle can have. -/
def StopsInCycle (t : ℕ) (s : Simulation) (o : Outcome Simulation) : Prop :=
  ∀ f, o.fault = some f → o.state.phase = s.phase ∧ f.OfCycle t

theorem stopsInCycle_of_evaluation {o : Outcome Simulation} (hp : o.state.phase = s.phase)
    (hf : ∀ f, o.fault = some f → f.OfEvaluation) :
    StopsInCycle t s (o.mapFault (.during t)) := by
  intro f h
  obtain ⟨e, he, rfl⟩ := Option.map_eq_some_iff.mp h
  exact ⟨hp, Or.inr ⟨e, hf e he, (hf e he).during t⟩⟩

theorem drive_stops (t : ℕ) (s : Simulation) : StopsInCycle t s (s.drive t) := by
  intro f hf
  rw [drive_eq] at hf ⊢
  refine ⟨rfl, Or.inl ?_⟩
  refine Assignment.run_fault (P := fun f => ∃ x, f = .missingInput x t) ?_ hf
  exact fun _ x _ _ h => ⟨x, Circuit.driving_fault h⟩

theorem pass_stops (t : ℕ) (s : Simulation) : StopsInCycle t s (s.pass.mapFault (.during t)) := by
  apply stopsInCycle_of_evaluation rfl
  intro f hf
  refine Assignment.run_fault (P := Fault.OfEvaluation) ?_ (pass_eq t s ▸ hf)
  exact fun _ _ _ _ h => Environment.get_fault h

theorem settle_stops (hl : ∀ tr ∈ s.outputs, t < tr.length) : StopsInCycle t s (s.settle t) := by
  apply Outcome.andThen_cases
  · intro _ _
    apply stopsInCycle_of_evaluation
    · apply Outcome.andThen_cases (P := fun o : Outcome Simulation => o.state.phase = s.phase)
      · exact fun _ _ => rfl
      · intro r hr
        obtain ⟨env, _, rfl⟩ := within_eq_done.mp hr
        rfl
    · intro f hf
      rcases Outcome.andThen_fault.mp hf with h | ⟨r, hr, h⟩
      · rw [update_eq] at h
        refine Assignment.run_fault (P := Fault.OfEvaluation) ?_ h
        exact fun _ _ _ _ h => Expr.eval_fault h
      · obtain ⟨env, _, rfl⟩ := within_eq_done.mp hr
        refine Outcome.mapEach_fault (P := Fault.OfEvaluation) (fun tr htr e he => ?_) h
        rw [Trace.record_fault (hl tr htr) he]
        trivial
  · intro r _ f hf
    cases hf

theorem advance_stops (hl : ∀ tr ∈ s.outputs, t < tr.length) : StopsInCycle t s (s.advance t) := by
  apply Outcome.andThen_cases
  · exact fun _ _ => drive_stops t s
  intro r hr
  rw [drive_eq] at hr
  obtain ⟨driven, _, rfl⟩ := within_eq_done.mp hr
  apply Outcome.andThen_cases
  · exact fun _ _ => pass_stops t _
  intro q hq
  rw [Outcome.mapFault_eq_done, pass_eq t] at hq
  obtain ⟨latched, _, rfl⟩ := within_eq_done.mp hq
  exact settle_stops hl

theorem reset_stops (s : Simulation) : StopsInCycle 0 s s.reset := by
  apply Outcome.andThen_cases
  · exact fun _ _ => drive_stops 0 s.cleared
  intro r hr
  rw [drive_eq] at hr
  obtain ⟨driven, _, rfl⟩ := within_eq_done.mp hr
  split
  · intro f hf
    cases hf
  · next hne =>
    have hl : ∀ tr ∈ s.circuit.unsetOutputs, 0 < tr.length := by
      intro tr htr
      obtain ⟨x, _, rfl⟩ := List.mem_map.mp htr
      rw [Trace.unset_length]
      exact Nat.pos_of_ne_zero hne
    exact settle_stops hl

def KeepsOutputs (s : Simulation) (o : Outcome Simulation) : Prop :=
  ∀ f, o.fault = some f → o.state.outputs = s.outputs

theorem settle_keepsOutputs
    (h : ∀ tr ∈ s.outputs, s.environment.binds tr.signal ∧ t < tr.length) :
    KeepsOutputs s (s.settle t) := by
  apply Outcome.andThen_cases
  · intro _ _
    apply Outcome.andThen_cases (P := fun o => KeepsOutputs s (o.mapFault (.during t)))
    · exact fun _ _ _ _ => rfl
    · intro r hr f hf
      rw [update_eq] at hr
      obtain ⟨env, he, rfl⟩ := within_eq_done.mp hr
      have grows := (Assignment.rebinds_of_run he).grows
      obtain ⟨ts, hts⟩ := Outcome.mapEach_done fun tr htr =>
        Trace.exists_record (grows _ (h tr htr).1) (h tr htr).2
      simp [record, hts] at hf
  · intro r _ f hf
    cases hf

theorem advance_keepsOutputs
    (h : ∀ tr ∈ s.outputs, s.environment.binds tr.signal ∧ t < tr.length) :
    KeepsOutputs s (s.advance t) := by
  apply Outcome.andThen_cases
  · exact fun _ _ _ _ => rfl
  intro r hr
  have hd := (drive_part t s).environment
  rw [hr] at hd
  rw [drive_eq] at hr
  obtain ⟨driven, _, rfl⟩ := within_eq_done.mp hr
  apply Outcome.andThen_cases
  · exact fun _ _ _ _ => rfl
  intro q hq
  rw [Outcome.mapFault_eq_done] at hq
  have hp := (pass_part t { s with environment := driven }).environment
  rw [hq] at hp
  rw [pass_eq t] at hq
  obtain ⟨latched, _, rfl⟩ := within_eq_done.mp hq
  exact settle_keepsOutputs fun tr htr =>
    ⟨hp.grows _ (hd.grows _ (h tr htr).1), (h tr htr).2⟩

end Simulation

namespace Circuit

variable {c : Circuit} {t : ℕ} {env env' : Environment}

def prepare (c : Circuit) (t : ℕ) (env : Environment) : Outcome Environment :=
  ((c.driving t).run c.inputs env).andThen fun env =>
    ((latching t).run c.latches env).mapFault (.during t)

def cycle (c : Circuit) (t : ℕ) (env : Environment) : Outcome Environment :=
  (c.prepare t env).andThen fun env => (updating.run c.updates env).mapFault (.during t)

theorem cycle_eq_done : c.cycle t env = .done env' ↔ c.Settles t env env' := by
  simp only [cycle, prepare, Outcome.andThen_eq_done, Outcome.mapFault_eq_done, Settles]
  constructor
  · rintro ⟨latched, ⟨driven, hd, hl⟩, hu⟩
    exact ⟨driven, latched, hd, hl, hu⟩
  · rintro ⟨driven, latched, hd, hl, hu⟩
    exact ⟨latched, ⟨driven, hd, hl⟩, hu⟩

end Circuit

namespace Simulation

variable {s s' : Simulation} {t : ℕ}

def conclude (t : ℕ) (s : Simulation) : Outcome Simulation :=
  ((record t s).mapFault (.during t)).andThen fun s => .done { s with phase := .cycle t }

theorem settle_eq (t : ℕ) :
    settle t = fun s => (s.update.mapFault (.during t)).andThen (conclude t) := by
  funext s
  rw [settle, Outcome.mapFault_andThen, Outcome.andThen_assoc]
  rfl

theorem within_andThen {o : Outcome Environment} {next : Environment → Outcome Environment}
    {next' : Simulation → Outcome Simulation}
    (h : ∀ env, next' { s with environment := env } = s.within (next env)) :
    s.within (o.andThen next) = (s.within o).andThen next' :=
  (Outcome.map_andThen fun env _ => h env).symm

theorem within_cycle (t : ℕ) (s : Simulation) : s.within (s.circuit.cycle t s.environment) =
    (s.within (s.circuit.prepare t s.environment)).andThen fun s =>
      s.update.mapFault (.during t) :=
  within_andThen fun _ => rfl

/-- A cycle is evaluated on the signals alone, and then recorded. -/
theorem advance_eq (t : ℕ) (s : Simulation) : s.advance (t + 1) =
    (s.within (s.circuit.cycle (t + 1) s.environment)).andThen (conclude (t + 1)) := by
  have hprepare : s.within (s.circuit.prepare (t + 1) s.environment) =
      (s.drive (t + 1)).andThen fun s => s.pass.mapFault (.during (t + 1)) := by
    rw [drive_eq]
    exact within_andThen fun _ => rfl
  simp only [within_cycle, hprepare, advance, Outcome.andThen_assoc, settle_eq]

theorem conclude_done (h : ∀ tr ∈ s.outputs, s.environment.binds tr.signal ∧ t < tr.length) :
    ∃ s', s.conclude t = .done s' := by
  obtain ⟨ts, hts⟩ := Outcome.mapEach_done fun tr htr =>
    Trace.exists_record (h tr htr).1 (h tr htr).2
  exact ⟨{ s with outputs := ts, phase := .cycle t }, by simp [conclude, record, hts]⟩

theorem within_of_fault {o : Outcome Environment} {f : Fault} (h : o.fault = some f) :
    s.within o = ⟨{ s with environment := o.state }, some f⟩ := by
  simp only [within, Outcome.map, h]

/-- The first cycle is one like the others, in an environment without values. -/
theorem reset_eq (s : Simulation) : s.reset =
    if s.circuit.length = 0 then
      (s.cleared.drive 0).andThen fun s => .done { s with phase := .done }
    else (s.cleared.within (s.circuit.cycle 0 s.cleared.environment)).andThen (conclude 0) := by
  have hprepare : s.cleared.within (s.circuit.prepare 0 s.cleared.environment) =
      (s.cleared.drive 0).andThen fun s => .done s.clear := by
    rw [drive_eq]
    refine within_andThen fun driven => ?_
    have hlatched := run_latching_zero { s.cleared with environment := driven }
    rw [cleared_circuit] at hlatched
    rw [hlatched]
    rfl
  have hcycle := within_cycle 0 s.cleared
  rw [cleared_circuit] at hcycle
  have hcircuit : ∀ r, s.cleared.drive 0 = .done r → r.circuit = s.circuit := by
    intro r hr
    have hpart := drive_part 0 s.cleared
    rw [hr] at hpart
    exact hpart.circuit
  rw [reset]
  split
  · next hl =>
    exact Outcome.andThen_congr fun r hr => by rw [hcircuit r hr, if_pos hl]
  · next hl =>
    rw [hcycle, hprepare, Outcome.andThen_assoc, Outcome.andThen_assoc]
    refine Outcome.andThen_congr fun r hr => ?_
    rw [hcircuit r hr, if_neg hl, Outcome.done_andThen, settle_eq]

end Simulation

end SyncCircuit
