import SyncCircuit.Proofs.Carried

/-!
What follows on a fault. A reset starts over as a new simulation would, and fails at most before
the first cycle. Without a reset the cycle is tried again, with the signals as the attempt before
has left them. This ends in the same fault each time if the updates were not reached, or if the
attempt has left the latches and the carried signals alone. Otherwise a latch can have got a value
in the cycle that failed, and the next attempt takes it for the value of the cycle before.
-/

namespace SyncCircuit

open Environment (Rebinds AgreeOn)

namespace Circuit

variable {c : Circuit} {t : ℕ} {env env' : Environment}

theorem prepare_rebinds (c : Circuit) (t : ℕ) (env : Environment) :
    Rebinds c.signals env (c.prepare t env).state := by
  have hd := (Assignment.run_rebinds (c.driving t) c.inputs env).mono (c.driving_names t)
  apply Outcome.andThen_cases (P := fun o => Rebinds c.signals env o.state)
  · exact fun _ _ => hd
  · intro driven h
    rw [h] at hd
    exact hd.trans ((Assignment.run_rebinds _ _ _).mono (c.latching_names t))

theorem cycle_rebinds (c : Circuit) (t : ℕ) (env : Environment) :
    Rebinds c.signals env (c.cycle t env).state := by
  have hp := c.prepare_rebinds t env
  apply Outcome.andThen_cases (P := fun o => Rebinds c.signals env o.state)
  · exact fun _ _ => hp
  · intro latched h
    rw [h] at hp
    exact hp.trans ((Assignment.run_rebinds _ _ _).mono c.updating_names)

structure BindsAll (c : Circuit) (env : Environment) : Prop where
  definitions : env.definitions = c.definitions
  binds : ∀ x, env.binds x ↔ x ∈ c.signals

theorem BindsAll.rebinds (h : c.BindsAll env) (hr : Rebinds c.signals env env') :
    c.BindsAll env' := by
  refine ⟨hr.definitions.trans h.definitions, fun x => ⟨fun hx => ?_, fun hx => ?_⟩⟩
  · exact (hr.bound hx).elim (h.binds x).mp id
  · exact hr.grows x ((h.binds x).mpr hx)

theorem driving_run_fault (xs : List Name) (env : Environment) :
    ((c.driving t).run xs env).fault =
      (xs.find? (c.stimulusAt · t = none)).map (.missingInput · t) := by
  induction xs generalizing env with
  | nil => rfl
  | cons x xs ih =>
    unfold Assignment.run at ih ⊢
    cases hx : c.stimulusAt x t with
    | none =>
      have he : (c.driving t).step env x = .error (.missingInput x t) :=
        Assignment.step_eq_error.mpr (by simp only [driving, hx])
      simp [Outcome.each_cons_error he, hx]
    | some b =>
      have ho : (c.driving t).step env x = .ok (env.bind x b) :=
        Assignment.step_eq_ok.mpr ⟨b, driving_value.mpr hx, rfl⟩
      simp [Outcome.each_cons_ok ho, ih, hx]

/-- Passing the latches on binds no new name, so it stops at the first latch that is not bound. -/
theorem latching_run_fault {names xs : List Name} (hb : ∀ x, env.binds x ↔ x ∈ names)
    (hl : ∀ x ∈ xs, latchOutput x ∈ names) :
    ((latching (t + 1)).run xs env).fault =
      (xs.find? (· ∉ names)).map .unboundSignal := by
  induction xs generalizing env with
  | nil => rfl
  | cons x xs ih =>
    unfold Assignment.run at ih ⊢
    by_cases hx : x ∈ names
    · obtain ⟨b, hv⟩ := Environment.binds_iff.mp ((hb x).mpr hx)
      have ho : (latching (t + 1)).step env x = .ok (env.bind (latchOutput x) b) :=
        Assignment.step_eq_ok.mpr
          ⟨b, by simpa [latching] using Environment.get_eq_ok.mpr hv, rfl⟩
      rw [Outcome.each_cons_ok ho, ih _ fun y hy => hl y (List.mem_cons_of_mem x hy)]
      · simp [hx]
      · have hr := Rebinds.bind (hl x List.mem_cons_self) env b
        intro y
        constructor
        · exact fun hy => (hr.bound hy).elim (hb y).mp id
        · exact fun hy => hr.grows y ((hb y).mpr hy)
    · have hv : env.values[x]? = none := by
        rw [← Option.not_isSome_iff_eq_none, ← Environment.binds_eq_isSome, hb]
        exact hx
      have he : (latching (t + 1)).step env x = .error (.unboundSignal x) :=
        Assignment.step_eq_error.mpr
          (by simpa [latching] using Environment.get_eq_error.mpr ⟨hv, rfl⟩)
      simp [Outcome.each_cons_error he, hx]

/-- What stops a cycle after the first before its updates, if anything does. -/
def obstacle (c : Circuit) (t : ℕ) : Option Fault :=
  ((c.inputs.find? (c.stimulusAt · t = none)).map (.missingInput · t)).or
    ((c.latches.find? (· ∉ c.signals)).map fun x => .atCycle t (.unboundSignal x))

theorem mem_signals_of_obstacle (ho : c.obstacle t = none) {x : Name} (hx : x ∈ c.latches) :
    x ∈ c.signals := by
  simp only [obstacle, Option.or_eq_none_iff, Option.map_eq_none_iff, List.find?_eq_none] at ho
  simpa using ho.2 x hx

theorem BindsAll.prepare_fault (h : c.BindsAll env) :
    (c.prepare (t + 1) env).fault = c.obstacle (t + 1) := by
  have hd := h.rebinds ((Assignment.run_rebinds (c.driving (t + 1)) c.inputs env).mono
    (c.driving_names (t + 1)))
  have hl : ∀ x ∈ c.latches, latchOutput x ∈ c.signals :=
    fun x hx => mem_signals.mpr (Or.inr (Or.inl (List.mem_map_of_mem hx)))
  rw [prepare, Outcome.fault_andThen, driving_run_fault, Outcome.mapFault_fault,
    latching_run_fault hd.binds hl, Option.map_map]
  rfl

theorem BindsAll.cycle_of_obstacle (h : c.BindsAll env) {f : Fault}
    (ho : c.obstacle (t + 1) = some f) : (c.cycle (t + 1) env).fault = some f := by
  rw [cycle, Outcome.fault_andThen, h.prepare_fault, ho, Option.some_or]

theorem BindsAll.cycle_ne_missingInput (h : c.BindsAll env) (ho : c.obstacle (t + 1) = none)
    (x : Name) (n : ℕ) : (c.cycle (t + 1) env).fault ≠ some (.missingInput x n) := by
  intro hf
  rw [cycle, Outcome.fault_andThen, h.prepare_fault, ho, Option.none_or,
    Outcome.mapFault_fault] at hf
  obtain ⟨e, he, hd⟩ := Option.map_eq_some_iff.mp hf
  have heval : e.OfEvaluation :=
    Assignment.run_fault (P := Fault.OfEvaluation) (fun _ _ _ _ h => Expr.eval_fault h) he
  rw [heval.during] at hd
  cases hd

/-- Where nothing stops a cycle before its updates, the memory decides whether an update does, and
what the cycle leaves in the memory. -/
theorem cycle_agree (ho : c.obstacle (t + 1) = none) (h : c.BindsAll env) (h' : c.BindsAll env')
    (hs : AgreeOn c.memory env env') :
    (c.cycle (t + 1) env).fault = (c.cycle (t + 1) env').fault ∧
      AgreeOn c.memory (c.cycle (t + 1) env).state (c.cycle (t + 1) env').state := by
  have hp := Outcome.eq_done_of_fault (h.prepare_fault.trans ho)
  have hp' := Outcome.eq_done_of_fault (h'.prepare_fault.trans ho)
  have hag := prepare_agree ⟨rfl, rfl, rfl, rfl, rfl⟩ (fun _ _ => rfl) hs hp hp'
  obtain ⟨hf, hst⟩ := Assignment.run_stops_agree (A := updating)
    (fun u _ _ _ he => Expr.eval_congr u.value he) c.ordered_known hag
  rw [cycle, cycle, hp, hp', Outcome.done_andThen, Outcome.done_andThen, Outcome.mapFault_fault,
    Outcome.mapFault_fault, hf]
  exact ⟨rfl, hst.mono fun x hx => Or.inr (Or.inr hx)⟩

end Circuit

namespace Simulation

variable {c : Circuit} {s s' : Simulation} {t : ℕ} {f : Fault}

theorem Coherent.reset_eq_start (h : Coherent c s) : s.reset = (start c).reset := by
  obtain rfl := h.circuit
  by_cases hp : s.phase = .uninitialized
  · have hc : s.cleared = (start s.circuit).cleared := by
      rw [cleared, cleared, hp]
      rfl
    rw [reset, reset, hc]
  · have hr := Outcome.eq_done_of_fault (h.restarts hp)
    rw [hr]
    exact reset_eq_done_iff.mpr hr

/-- A reset starts over, whatever was called before it. It does not fail once a cycle has been
recorded. -/
theorem reset_after (c : Circuit) (calls : List Call) :
    (after c calls).reset = (start c).reset ∧
      (∀ f, (after c calls).reset.fault = some f → (after c calls).phase = .uninitialized) ∧
      ∀ later, (after c calls).phase ≠ .uninitialized →
        (after c (calls ++ later)).reset.fault = none := by
  have h := coherent_after c calls
  refine ⟨h.reset_eq_start, fun f hf => ?_, fun later hp => ?_⟩
  · by_contra hp
    rw [h.reset_eq_start, h.restarts hp] at hf
    cases hf
  · rw [(coherent_after c (calls ++ later)).reset_eq_start]
    exact h.restarts hp

theorem clock_of_cycle_fault (h : Coherent c s) (hp : s.phase = .cycle t) (ht : t + 1 < c.length)
    (hf : (c.cycle (t + 1) s.environment).fault = some f) :
    s.clock = ⟨{ s with environment := (c.cycle (t + 1) s.environment).state }, some f⟩ := by
  obtain rfl := h.circuit
  rw [clock_of_cycle hp ht, advance_eq, within_of_fault hf]
  rfl

theorem clock_fault_of_cycle (h : Coherent c s) (hp : s.phase = .cycle t) (ht : t + 1 < c.length) :
    s.clock.fault = (c.cycle (t + 1) s.environment).fault := by
  cases hf : (c.cycle (t + 1) s.environment).fault with
  | some f => rw [clock_of_cycle_fault h hp ht hf]
  | none =>
    have hd := Outcome.eq_done_of_fault hf
    have grows := (Circuit.cycle_eq_done.mp hd).rebinds.grows
    have hr := h.recordable hp ht
    obtain rfl := h.circuit
    obtain ⟨s', hs'⟩ : ∃ s', conclude (t + 1) { s with environment := _ } = .done s' :=
      conclude_done fun tr htr => ⟨grows _ (hr tr htr).1, (hr tr htr).2⟩
    rw [clock_of_cycle hp ht, advance_eq, hd, within_eq_done.mpr ⟨_, rfl, rfl⟩,
      Outcome.done_andThen, hs', Outcome.done_fault]

theorem Coherent.bindsAll (h : Coherent c s) (hp : s.phase = .cycle t) :
    c.BindsAll s.environment where
  definitions := h.definitions
  binds x := by
    have hpos := (h.cycle t hp).1
    exact ⟨h.bound x, h.settled (by simp [hp]) (by omega) x⟩

theorem phase_of_clock_fault (h : Coherent c s) (hf : s.clock.fault = some f) :
    s.phase = .uninitialized ∨ ∃ t, s.phase = .cycle t ∧ t + 1 < c.length := by
  cases hp : s.phase with
  | uninitialized => exact Or.inl rfl
  | cycle t =>
    refine Or.inr ⟨t, rfl, ?_⟩
    by_contra ht
    rw [clock_of_last hp (by rw [h.circuit]; omega)] at hf
    cases hf
  | done =>
    rw [clock_of_done hp] at hf
    cases hf

def performAll (s : Simulation) (calls : List Call) : Simulation :=
  calls.foldl (fun s call => (s.perform call).state) s

theorem after_append (c : Circuit) (calls later : List Call) :
    after c (calls ++ later) = (after c calls).performAll later :=
  List.foldl_append

/-- Every clock and every run from now on fails with the same fault and gets no further, unless
there is a reset before it. -/
def Stalled (f : Fault) (s : Simulation) : Prop :=
  ∀ later : List Call, .reset ∉ later → (s.performAll later).phase = s.phase ∧
    (s.performAll later).outputs = s.outputs ∧
    ∀ call ≠ .reset, ((s.performAll later).perform call).fault = some f

theorem Stalled.clock (h : s.Stalled f) : s.clock.state.Stalled f := by
  obtain ⟨hp, ho, -⟩ := h [.clock] (by decide)
  intro later hno
  obtain ⟨hp', ho', hf⟩ := h (.clock :: later) (by simpa using hno)
  exact ⟨hp'.trans hp.symm, ho'.trans ho.symm, hf⟩

theorem perform_of_clock_fault {call : Call} (hcall : call ≠ .reset)
    (hf : s.clock.fault = some f) : s.perform call = s.clock := by
  cases call with
  | reset => exact (hcall rfl).elim
  | clock => rfl
  | run =>
    have hne : s.phase ≠ .done := by
      intro hp
      rw [clock_of_done hp] at hf
      cases hf
    obtain ⟨n, hn⟩ : ∃ n, s.remaining = n + 1 := by
      unfold remaining
      cases hp : s.phase with
      | uninitialized => exact ⟨_, rfl⟩
      | cycle t => exact ⟨_, rfl⟩
      | done => exact (hne hp).elim
    rw [perform, run, hn, clocks_succ, Outcome.andThen_of_fault hf]

theorem stalled_of_invariant {R : Simulation → Prop}
    (hR : ∀ s, R s → s.clock.fault = some f ∧ s.clock.state.phase = s.phase ∧
      s.clock.state.outputs = s.outputs ∧ R s.clock.state) (hs : R s) : s.Stalled f := by
  intro later
  induction later generalizing s with
  | nil =>
    intro _
    refine ⟨rfl, rfl, fun call hcall => ?_⟩
    have hf := (hR s hs).1
    rw [performAll, List.foldl_nil, perform_of_clock_fault hcall hf, hf]
  | cons call later ih =>
    intro hno
    rw [List.mem_cons, not_or] at hno
    obtain ⟨hf, hphase, hout, hnext⟩ := hR s hs
    obtain ⟨hp, ho, hall⟩ := ih hnext hno.2
    rw [performAll, List.foldl_cons, perform_of_clock_fault (Ne.symm hno.1) hf]
    exact ⟨hp.trans hphase, ho.trans hout, hall⟩

theorem stalled_of_uninitialized (h : Coherent c s) (hp : s.phase = .uninitialized)
    (hf : s.clock.fault = some f) : s.clock.state.Stalled f := by
  rw [clock_of_uninitialized hp, h.reset_eq_start] at hf ⊢
  have hphase := (reset_stops (start c) f hf).1
  have hr := coherent_reset (coherent_start c)
  -- The reset is tried again and again, and leads to the same state each time.
  have hclock : (start c).reset.state.clock = (start c).reset := by
    rw [clock_of_uninitialized hphase, hr.reset_eq_start]
  refine stalled_of_invariant (R := (· = (start c).reset.state)) ?_ rfl
  rintro r rfl
  rw [hclock]
  exact ⟨hf, rfl, rfl, rfl⟩

theorem stalled_of_cycle {E : Environment → Prop}
    (hE : ∀ env, c.BindsAll env → E env →
      (c.cycle (t + 1) env).fault = some f ∧ E (c.cycle (t + 1) env).state)
    (h : Coherent c s) (hp : s.phase = .cycle t) (ht : t + 1 < c.length) (he : E s.environment) :
    s.Stalled f := by
  refine stalled_of_invariant
    (R := fun r => Coherent c r ∧ r.phase = .cycle t ∧ E r.environment) ?_ ⟨h, hp, he⟩
  rintro r ⟨hr, hrp, hre⟩
  obtain ⟨hf, hnext⟩ := hE _ (hr.bindsAll hrp) hre
  have hc := coherent_clock hr
  rw [clock_of_cycle_fault hr hrp ht hf] at hc ⊢
  exact ⟨rfl, rfl, rfl, hc, hrp, hnext⟩

theorem stalled_of_obstacle (ho : c.obstacle (t + 1) = some f) (h : Coherent c s)
    (hp : s.phase = .cycle t) (ht : t + 1 < c.length) : s.Stalled f :=
  stalled_of_cycle (E := fun _ => True) (fun _ henv _ => ⟨henv.cycle_of_obstacle ho, trivial⟩)
    h hp ht trivial

theorem stalled_of_memory (ho : c.obstacle (t + 1) = none) (h : Coherent c s)
    (hp : s.phase = .cycle t) (ht : t + 1 < c.length)
    (hf : (c.cycle (t + 1) s.environment).fault = some f)
    (hm : ∀ x ∈ c.memory, (c.cycle (t + 1) s.environment).state.values[x]? =
      s.environment.values[x]?) : s.Stalled f := by
  have hd := (c.cycle_rebinds (t + 1) s.environment).definitions
  refine stalled_of_cycle (E := fun env => AgreeOn c.memory env s.environment) ?_ h hp ht
    ⟨rfl, fun _ _ => rfl⟩
  intro env henv hag
  obtain ⟨hfault, hstate⟩ := Circuit.cycle_agree ho henv (h.bindsAll hp) hag
  refine ⟨hfault.trans hf, hstate.definitions.trans hd, fun x hx => ?_⟩
  exact (hstate.values x hx).trans (hm x hx)

/-- What an attempt at a cycle has failed for, and the next one will fail for again. -/
inductive Lasting (c : Circuit) (f : Fault) (s s' : Simulation) : Prop where
  /-- The first cycle starts from nothing. -/
  | first : s.phase = .uninitialized → Lasting c f s s'
  | input (x : Name) (t : ℕ) : f = .missingInput x t → Lasting c f s s'
  | latch (x : Name) : x ∈ c.latches → x ∉ c.signals → Lasting c f s s'
  | memory : (∀ x ∈ c.memory, s'.environment.values[x]? = s.environment.values[x]?) →
      Lasting c f s s'

theorem stalled_of_lasting (h : Coherent c s) (hclock : s.clock = ⟨s', some f⟩)
    (hl : Lasting c f s s') : s'.Stalled f := by
  have hf : s.clock.fault = some f := by rw [hclock]
  obtain rfl : s.clock.state = s' := by rw [hclock]
  rcases phase_of_clock_fault h hf with hp | ⟨t, hp, ht⟩
  · exact stalled_of_uninitialized h hp hf
  have hb := h.bindsAll hp
  rw [clock_fault_of_cycle h hp ht] at hf
  apply Stalled.clock
  -- An obstacle stops every attempt. Without one the updates run, and only the memory can have
  -- changed for the next of them.
  cases ho : c.obstacle (t + 1) with
  | some g =>
    obtain rfl : f = g := Option.some.inj (hf.symm.trans (hb.cycle_of_obstacle ho))
    exact stalled_of_obstacle ho h hp ht
  | none =>
    cases hl with
    | first hu =>
      rw [hp] at hu
      cases hu
    | input x n hx => exact (hb.cycle_ne_missingInput ho x n (hx ▸ hf)).elim
    | latch x hx hn => exact (hn (Circuit.mem_signals_of_obstacle ho hx)).elim
    | memory hm =>
      rw [clock_of_cycle_fault h hp ht hf] at hm
      exact stalled_of_memory ho h hp ht hf hm

theorem exists_clock_of_clocks_fault {n : ℕ} (hf : (clocks n s).fault = some f) :
    ∃ k, (s.performAll (.replicate k .clock)).clock = clocks n s := by
  induction n generalizing s with
  | zero => cases hf
  | succ n ih =>
    rw [clocks_succ] at hf ⊢
    rcases Outcome.andThen_fault.mp hf with hs | ⟨r, hr, hs⟩
    · exact ⟨0, (Outcome.andThen_of_fault hs _).symm⟩
    · obtain ⟨k, hk⟩ := ih hs
      refine ⟨k + 1, ?_⟩
      rw [hr, Outcome.done_andThen, ← hk, List.replicate_succ, performAll, List.foldl_cons,
        perform, hr]
      rfl

theorem exists_clock_of_fault {call : Call} (hcall : call ≠ .reset)
    (hf : (s.perform call).fault = some f) :
    ∃ k, (s.performAll (.replicate k .clock)).clock = s.perform call := by
  cases call with
  | reset => exact (hcall rfl).elim
  | clock => exact ⟨0, rfl⟩
  | run => exact exists_clock_of_clocks_fault hf

/-- A clock or run fails with its last clock. What this has failed for does not go away by further
clocks and runs if it was there before the updates of the cycle, and neither if the clock has left
the memory as it was. -/
theorem stalled_of_fault {calls : List Call} {call : Call} (hcall : call ≠ .reset)
    (hf : (after c calls).perform call = ⟨s, some f⟩) :
    s = after c (calls ++ [call]) ∧
      (∃ k, (after c (calls ++ .replicate k .clock)).clock = ⟨s, some f⟩) ∧
      ∀ k, (after c (calls ++ .replicate k .clock)).clock = ⟨s, some f⟩ →
        Lasting c f (after c (calls ++ .replicate k .clock)) s → s.Stalled f := by
  have hfault : ((after c calls).perform call).fault = some f := by rw [hf]
  obtain ⟨k, hk⟩ := exists_clock_of_fault hcall hfault
  rw [← after_append, hf] at hk
  refine ⟨?_, ⟨k, hk⟩, fun n hn hl => stalled_of_lasting (coherent_after c _) hn hl⟩
  rw [after_append]
  exact (congrArg Outcome.state hf).symm

def flip : Update := ⟨"L", .not (.signal "L'")⟩

/-- Reads `Z`, to which nothing is ever bound, but not while the output of the latch is `0`. -/
def look : Update := ⟨"B", .or (.not (.signal "L'")) (.signal "Z")⟩

def wavering (updates : List Update) : Circuit where
  name := "wavering"
  inputs := ["A"]
  outputs := ["B"]
  latches := ["L"]
  definitions := .empty
  updates := updates
  stimuli := [.ofValues "A" [false, false]]
  recorded := [.unset "B" 2]
  length := 2
  length_eq := by decide

theorem stalled_of_fault_wavering :
    (after (wavering [look, flip]) []).perform .run =
        ⟨after (wavering [look, flip]) [.run], some (.atCycle 1 (.unboundSignal "Z"))⟩ ∧
      (after (wavering [look, flip]) [.run]).Stalled (.atCycle 1 (.unboundSignal "Z")) := by
  have hf : (after (wavering [look, flip]) []).perform .run =
      ⟨after (wavering [look, flip]) [.run], some (.atCycle 1 (.unboundSignal "Z"))⟩ := rfl
  have kept : ∀ x ∈ (wavering [look, flip]).latches ++ (wavering [look, flip]).carried,
      (after (wavering [look, flip]) [.run]).environment.values[x]? =
        (after (wavering [look, flip]) [.clock]).environment.values[x]? := by decide
  obtain ⟨-, -, stalled⟩ := stalled_of_fault (by decide) hf
  exact ⟨hf, stalled 1 rfl (.memory fun x hx => kept x (List.mem_append.mpr hx))⟩

/-- A latch that has got its value before the fault makes the next attempt another one. -/
theorem not_stalled_of_fault : ¬ ∀ (c : Circuit) (calls : List Call) (call : Call) (f : Fault),
    call ≠ .reset → ((after c calls).perform call).fault = some f →
      ∀ later, .reset ∉ later → ∀ next ≠ .reset,
        ((after c (calls ++ call :: later)).perform next).fault ≠ none := by
  intro h
  exact h (wavering [flip, look]) [.clock] .clock (.atCycle 1 (.unboundSignal "Z")) (by decide) rfl
    [] (by decide) .clock (by decide) rfl

end Simulation

end SyncCircuit
