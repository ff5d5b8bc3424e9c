import SyncCircuit.Proofs.Clocked

/-!
What a cycle gets from the one before. Signals keep their values until they get new ones, so that
an update which stands before the one of a signal it reads sees the value of the previous cycle.
Apart from such signals, a cycle depends on the latches and on what drives the inputs only.
-/

namespace SyncCircuit

open Environment (AgreeOn)

namespace Circuit

/-- The signals that updates read while they are neither known nor given a value by an update
before. A signal counts wherever it stands, whether evaluation comes to it or not. -/
def carriedBy : List Name → List Update → List Name
  | _, [] => []
  | known, u :: us => u.value.signals.filter (· ∉ known) ++ carriedBy (u.target :: known) us

def carried (c : Circuit) : List Name := carriedBy (c.inputs ++ c.latchOutputs) c.updates

theorem mem_carriedBy {known : List Name} {us : List Update} {x : Name} :
    x ∈ carriedBy known us ↔ ∃ before u after, us = before ++ u :: after ∧ x ∈ u.value.signals ∧
      x ∉ known ∧ x ∉ before.map Update.target := by
  induction us generalizing known with
  | nil => simp [carriedBy]
  | cons u us ih =>
    simp only [carriedBy, List.mem_append, List.mem_filter, decide_eq_true_eq, ih]
    constructor
    · rintro (⟨hx, hn⟩ | ⟨before, w, after, rfl, hx, hn, hb⟩)
      · exact ⟨[], u, us, rfl, hx, hn, by simp⟩
      · simp only [List.mem_cons, not_or] at hn
        exact ⟨u :: before, w, after, rfl, hx, hn.2, by simp [hn.1, hb]⟩
    · rintro ⟨before, w, after, heq, hx, hn, hb⟩
      cases before with
      | nil =>
        obtain ⟨rfl, rfl⟩ := List.cons.inj heq
        exact Or.inl ⟨hx, hn⟩
      | cons v before =>
        obtain ⟨rfl, rfl⟩ := List.cons.inj heq
        simp only [List.map_cons, List.mem_cons, not_or] at hb
        exact Or.inr ⟨before, w, after, rfl, hx, by simp [hb.1, hn], hb.2⟩

theorem carried_eq_nil_iff {c : Circuit} : c.carried = [] ↔
    ∀ before u after, c.updates = before ++ u :: after → ∀ x ∈ u.value.signals,
      x ∈ c.inputs ∨ x ∈ c.latchOutputs ∨ x ∈ before.map Update.target := by
  rw [List.eq_nil_iff_forall_not_mem]
  constructor
  · intro h before u after heq x hx
    by_contra hn
    rw [not_or, not_or] at hn
    refine h x (mem_carriedBy.mpr ⟨before, u, after, heq, hx, ?_, hn.2.2⟩)
    rw [List.mem_append, not_or]
    exact ⟨hn.1, hn.2.1⟩
  · intro h x hx
    obtain ⟨before, u, after, heq, hu, hk, hb⟩ := mem_carriedBy.mp hx
    rw [List.mem_append, not_or] at hk
    rcases h before u after heq x hu with hi | hl | ht
    · exact hk.1 hi
    · exact hk.2 hl
    · exact hb ht

theorem ordered_of_carriedBy {known : List Name} {us : List Update} {S : Set Name}
    (hk : ∀ x ∈ known, x ∈ S) (hc : ∀ x ∈ carriedBy known us, x ∈ S) :
    Assignment.Ordered (fun u => u.value.reads) Update.target S us := by
  induction us generalizing known S with
  | nil => trivial
  | cons u us ih =>
    have hk' : ∀ x ∈ u.target :: known, x ∈ insert u.target S := by
      intro x hx
      rcases List.mem_cons.mp hx with rfl | hx
      · exact Set.mem_insert _ _
      · exact Set.mem_insert_of_mem _ (hk x hx)
    refine ⟨fun x hx => ?_, ih hk' fun x hx => ?_⟩
    · by_cases hn : x ∈ known
      · exact hk x hn
      · apply hc
        simp only [carriedBy, List.mem_append, List.mem_filter]
        exact Or.inl ⟨hx, by simpa using hn⟩
    · exact Set.mem_insert_of_mem _ (hc x (List.mem_append_right _ hx))

theorem ordered_updates {c : Circuit} {S : Set Name} (hi : ∀ x ∈ c.inputs, x ∈ S)
    (hl : ∀ x ∈ c.latchOutputs, x ∈ S) (hc : ∀ x ∈ c.carried, x ∈ S) :
    Assignment.Ordered (fun u => u.value.reads) Update.target S c.updates := by
  refine ordered_of_carriedBy (fun x hx => ?_) hc
  rcases List.mem_append.mp hx with hx | hx
  · exact hi x hx
  · exact hl x hx

/-- The signals whose values a cycle can have from the one before. -/
def memory (c : Circuit) : Set Name := {x | x ∈ c.latches ∨ x ∈ c.carried}

/-- The signals that decide what the updates of a cycle come to. -/
def known (c : Circuit) : Set Name := {x | x ∈ c.latchOutputs} ∪ ({x | x ∈ c.inputs} ∪ c.memory)

theorem ordered_known (c : Circuit) :
    Assignment.Ordered (fun u => u.value.reads) Update.target c.known c.updates :=
  ordered_updates (fun _ hx => Or.inr (Or.inl hx)) (fun _ hx => Or.inl hx)
    fun _ hx => Or.inr (Or.inr (Or.inr hx))

/-- The circuits differ at most in what drives them. -/
structure SameDesign (c d : Circuit) : Prop where
  inputs : c.inputs = d.inputs
  outputs : c.outputs = d.outputs
  latches : c.latches = d.latches
  definitions : c.definitions = d.definitions
  updates : c.updates = d.updates

structure Describes (p : Program) (c : Circuit) : Prop where
  name : c.name = p.name
  inputs : c.inputs = p.inputs
  outputs : c.outputs = p.outputs
  latches : c.latches = p.latches
  definitions : c.definitions = .ofList p.definitions
  updates : c.updates = p.updates
  stimuli : c.stimuli = p.stimuli
  length : c.length = (p.stimuli.head?.map Trace.length).getD 0
  recorded : c.recorded = c.unsetOutputs

theorem ofProgram_eq_ok_iff {p : Program} {c : Circuit} :
    ofProgram p = .ok c ↔ Describes p c := by
  unfold ofProgram
  dsimp only
  split
  · next t h =>
    simp only [reduceCtorEq, false_iff]
    intro hc
    have ht := c.length_eq t (hc.stimuli ▸ List.mem_of_find?_eq_some h)
    have hne := List.find?_some h
    simp [← hc.length, ht] at hne
  · constructor
    · intro h
      cases h
      exact ⟨rfl, rfl, rfl, rfl, rfl, rfl, rfl, rfl, rfl⟩
    · intro hc
      cases c
      obtain ⟨rfl, rfl, rfl, rfl, rfl, rfl, rfl, rfl, hr⟩ := hc
      simp only [unsetOutputs] at hr
      subst hr
      rfl

theorem Describes.stimulusAt {p : Program} {c : Circuit} (h : c.Describes p) (x : Name) (t : ℕ) :
    c.stimulusAt x t = (p.stimuli.find? (·.signal = x)).bind (·.get? t) := by
  rw [Circuit.stimulusAt, stimulus?, h.stimuli]

theorem ofProgram_eq_ok {p : Program} {c : Circuit} (h : ofProgram p = .ok c) :
    c.inputs = p.inputs ∧ c.outputs = p.outputs ∧ c.latches = p.latches ∧
      c.definitions = .ofList p.definitions ∧ c.updates = p.updates := by
  have hc := ofProgram_eq_ok_iff.mp h
  exact ⟨hc.inputs, hc.outputs, hc.latches, hc.definitions, hc.updates⟩

theorem sameDesign_of_ofProgram {p : Program} {us : List Trace} {c d : Circuit}
    (hc : ofProgram p = .ok c) (hd : ofProgram { p with stimuli := us } = .ok d) :
    SameDesign c d := by
  obtain ⟨hi, ho, hl, hf, hu⟩ := ofProgram_eq_ok hc
  obtain ⟨ki, ko, kl, kf, ku⟩ := ofProgram_eq_ok hd
  exact ⟨hi.trans ki.symm, ho.trans ko.symm, hl.trans kl.symm, hf.trans kf.symm, hu.trans ku.symm⟩

section passes

variable {c d : Circuit} {t : ℕ} {S : Set Name} {env env' r r' : Environment}

theorem driving_agree (hi : ∀ x ∈ c.inputs, c.stimulusAt x t = d.stimulusAt x t)
    (hs : AgreeOn S env env') (hr : (c.driving t).run c.inputs env = .done r)
    (hr' : (d.driving t).run c.inputs env' = .done r') :
    AgreeOn ({x | x ∈ c.inputs} ∪ S) r r' := by
  have congr : ∀ x ∈ c.inputs, ∀ e e', AgreeOn ∅ e e' →
      (c.driving t).value e x = (d.driving t).value e' x := by
    intro x hx e e' _
    simp only [driving, hi x hx]
  have ordered : Assignment.Ordered (fun _ => ∅) (c.driving t).name S c.inputs :=
    Assignment.ordered_of_subset fun _ _ => Set.empty_subset S
  have hname : ∀ x, (c.driving t).name x = (d.driving t).name x := fun _ => rfl
  obtain ⟨q, hq, hag⟩ := Assignment.run_agree hname congr ordered hs hr
  obtain rfl := Outcome.done_inj.mp (hq.symm.trans hr')
  simpa [driving] using hag

theorem latching_agree (hl : ∀ x ∈ c.latches, x ∈ S) (hs : AgreeOn S env env')
    (hr : (latching t).run c.latches env = .done r)
    (hr' : (latching t).run c.latches env' = .done r') :
    AgreeOn ({x | x ∈ c.latchOutputs} ∪ S) r r' := by
  have congr : ∀ x ∈ c.latches, ∀ e e', AgreeOn {x} e e' →
      (latching t).value e x = (latching t).value e' x := by
    intro x _ e e' he
    simp only [latching, Environment.get_congr (he.values x rfl)]
  have ordered : Assignment.Ordered (fun x => {x}) (latching t).name S c.latches :=
    Assignment.ordered_of_subset fun x hx => Set.singleton_subset_iff.mpr (hl x hx)
  obtain ⟨q, hq, hag⟩ := Assignment.run_agree (fun _ => rfl) congr ordered hs hr
  obtain rfl := Outcome.done_inj.mp (hq.symm.trans hr')
  exact hag

theorem updating_agree
    (ho : Assignment.Ordered (fun u => u.value.reads) Update.target S c.updates)
    (hs : AgreeOn S env env') (hr : updating.run c.updates env = .done r)
    (hr' : updating.run c.updates env' = .done r') : AgreeOn ({x | x ∈ c.targets} ∪ S) r r' := by
  have congr : ∀ u ∈ c.updates, ∀ e e', AgreeOn u.value.reads e e' →
      updating.value e u = updating.value e' u :=
    fun u _ _ _ he => Expr.eval_congr u.value he
  obtain ⟨q, hq, hag⟩ := Assignment.run_agree (fun _ => rfl) congr ho hs hr
  obtain rfl := Outcome.done_inj.mp (hq.symm.trans hr')
  exact hag

theorem prepare_agree (hcd : SameDesign c d)
    (hi : ∀ x ∈ c.inputs, c.stimulusAt x t = d.stimulusAt x t) (hs : AgreeOn c.memory env env')
    (h : c.prepare t env = .done r) (k : d.prepare t env' = .done r') :
    AgreeOn c.known r r' := by
  obtain ⟨driven, hd, hl⟩ := Outcome.andThen_eq_done.mp h
  obtain ⟨driven', hd', hl'⟩ := Outcome.andThen_eq_done.mp k
  rw [Outcome.mapFault_eq_done] at hl hl'
  rw [← hcd.inputs] at hd'
  rw [← hcd.latches] at hl'
  exact latching_agree (fun x hx => Or.inr (Or.inl hx)) (driving_agree hi hs hd hd') hl hl'

/-- Cycles that are driven alike and start with the same latches and carried signals end with the
same signals. -/
theorem Settles.agree (hcd : SameDesign c d) (h : c.Settles t env r) (k : d.Settles t env' r')
    (hs : AgreeOn c.memory env env')
    (hi : ∀ x ∈ c.inputs, c.stimulusAt x t = d.stimulusAt x t) :
    AgreeOn {x | x ∈ c.signals} r r' := by
  obtain ⟨latched, hp, hu⟩ := Outcome.andThen_eq_done.mp (cycle_eq_done.mpr h)
  obtain ⟨latched', hp', hu'⟩ := Outcome.andThen_eq_done.mp (cycle_eq_done.mpr k)
  rw [Outcome.mapFault_eq_done] at hu hu'
  rw [← hcd.updates] at hu'
  refine (updating_agree c.ordered_known (prepare_agree hcd hi hs hp hp') hu hu').mono ?_
  intro x hx
  rcases mem_signals.mp hx with hx | hx | hx
  · exact Or.inr (Or.inr (Or.inl hx))
  · exact Or.inr (Or.inl hx)
  · exact Or.inl hx

end passes

end Circuit

namespace Simulation

theorem Successive.cells {c : Circuit} {t : ℕ} {s s' : Simulation} (h : Successive c t s s') :
    s'.outputs.map (·.get? (t + 1)) = c.outputs.map fun x => s'.environment.values[x]? := by
  rw [← h.coherent.names, List.map_map]
  exact List.map_congr_left fun tr htr => (get?_of_mapEach_record h.recorded htr).1

/-- Two simulations of one design record the same values in a cycle for which their inputs, their
latches and the signals that are carried over have the same values. -/
theorem cells_agree {p : Program} {stimuli : List Trace} {c d : Circuit}
    (hc : Circuit.ofProgram p = .ok c)
    (hd : Circuit.ofProgram { p with stimuli := stimuli } = .ok d) {t : ℕ}
    {s s' r r' : Simulation} (hs : Successive c t s s') (hr : Successive d t r r')
    (latches : ∀ x ∈ c.latches, s.environment.values[x]? = r.environment.values[x]?)
    (carried : ∀ x ∈ c.carried, s.environment.values[x]? = r.environment.values[x]?)
    (inputs : ∀ x ∈ c.inputs, c.stimulusAt x (t + 1) = d.stimulusAt x (t + 1)) :
    s'.outputs.map (·.get? (t + 1)) = r'.outputs.map (·.get? (t + 1)) := by
  have hcd := Circuit.sameDesign_of_ofProgram hc hd
  have hag : AgreeOn {x | x ∈ c.latches ∨ x ∈ c.carried} s.environment r.environment := by
    refine ⟨?_, fun x hx => hx.elim (latches x) (carried x)⟩
    rw [hs.clocked.coherent.definitions, hr.clocked.coherent.definitions, hcd.definitions]
  have hsame := hs.settles.agree hcd hr.settles hag inputs
  have hpos : 0 < c.length := by
    have h := (hs.coherent.cycle (t + 1) hs.next).1
    omega
  have hne : s'.phase ≠ .uninitialized := by simp [hs.next]
  rw [hs.cells, hr.cells, ← hcd.outputs]
  exact List.map_congr_left fun x hx => hsame.values x (hs.coherent.observed hne hpos x hx)

/-- The first update reads `T` before it gets its value, but not while `A` is `0`. The signals `C`
and `D` are driven in the first cycle only. -/
def leaky (c d : Bool) : Program where
  name := "leaky"
  inputs := ["A", "C", "D"]
  outputs := ["B"]
  latches := []
  definitions := []
  updates := [⟨"B", .and (.signal "A") (.signal "T")⟩, ⟨"T", .and (.signal "C") (.signal "D")⟩]
  stimuli := [.ofValues "A" [false, true, false, true],
    .ofValues "C" [c, false, false, false], .ofValues "D" [d, false, false, false]]

theorem cells_agree_leaky : ∃ (c d : Circuit) (s s' r r' : Simulation),
    Circuit.ofProgram (leaky false true) = .ok c ∧
      Circuit.ofProgram (leaky true false) = .ok d ∧
      Successive c 0 s s' ∧ Successive d 0 r r' ∧
      (∀ x ∈ c.carried, s.environment.values[x]? = r.environment.values[x]?) ∧
      s'.outputs.map (·.get? 1) = r'.outputs.map (·.get? 1) := by
  obtain ⟨c, hc⟩ : ∃ c, Circuit.ofProgram (leaky false true) = .ok c := ⟨_, rfl⟩
  obtain ⟨d, hd⟩ : ∃ d, Circuit.ofProgram (leaky true false) = .ok d := ⟨_, rfl⟩
  have hs : Successive c 0 (after c [.clock]) (after c [.clock, .clock]) := by
    cases hc
    exact ⟨Clocked.start.clock rfl, rfl, rfl, rfl⟩
  have hr : Successive d 0 (after d [.clock]) (after d [.clock, .clock]) := by
    cases hd
    exact ⟨Clocked.start.clock rfl, rfl, rfl, rfl⟩
  have carried : ∀ x ∈ c.carried,
      (after c [.clock]).environment.values[x]? = (after d [.clock]).environment.values[x]? := by
    cases hc
    cases hd
    decide
  refine ⟨c, d, _, _, _, _, hc, hd, hs, hr, carried, cells_agree hc hd hs hr ?_ carried ?_⟩
  · cases hc
    cases hd
    decide
  · cases hc
    cases hd
    decide

theorem not_cells_agree_of_carried : ¬ ∀ (p : Program) (stimuli : List Trace) (c d : Circuit)
    (t : ℕ) (s s' r r' : Simulation),
      stimuli.map (fun tr => (tr.signal, tr.length)) =
        p.stimuli.map (fun tr => (tr.signal, tr.length)) →
      Circuit.ofProgram p = .ok c → Circuit.ofProgram { p with stimuli := stimuli } = .ok d →
      Successive c t s s' → Successive d t r r' →
      (∀ x ∈ c.latches, s.environment.values[x]? = r.environment.values[x]?) →
      (∀ x ∈ c.inputs, c.stimulusAt x (t + 1) = d.stimulusAt x (t + 1)) →
      s'.outputs.map (·.get? (t + 1)) = r'.outputs.map (·.get? (t + 1)) := by
  intro h
  have heq := h (leaky false false) (leaky true true).stimuli _ _ 0 _ _ _ _ rfl rfl rfl
    ⟨Clocked.start.clock rfl, rfl, rfl, rfl⟩ ⟨Clocked.start.clock rfl, rfl, rfl, rfl⟩
    (by decide) (by decide)
  exact absurd heq (by decide)

end Simulation

end SyncCircuit
