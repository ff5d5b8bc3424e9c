import SyncCircuit.Proofs.Clocked

/-!
The delay of a latch. A latch output is `0` in the first cycle and then has the value that the latch
had one cycle before, as long as the latch is a computed signal. The inputs are driven before the
latches are passed on, so the output of a latch that is an input follows it without delay.
-/

namespace SyncCircuit

open Environment (AgreeOn)

namespace Circuit

/-- No latch output has the name of another signal. -/
structure Separate (c : Circuit) : Prop where
  inputs : ∀ x ∈ c.latchOutputs, x ∉ c.inputs
  targets : ∀ x ∈ c.latchOutputs, x ∉ c.targets
  latches : ∀ x ∈ c.latchOutputs, x ∉ c.latches

variable {c : Circuit} {t : ℕ} {env env' : Environment} {x latch : Name}

theorem value_of_driving (h : (c.driving t).run c.inputs env = .done env') (hx : x ∈ c.inputs) :
    env'.values[x]? = c.stimulusAt x t := by
  obtain ⟨b, hb, hv⟩ := Assignment.value_of_run (fun _ _ _ _ => rfl)
    (fun a _ b _ hab => by rw [show a = b from hab]) h hx
  rw [driving_value.mp hb]
  exact hv

theorem value_of_latching (hs : c.Separate) (h : (latching t).run c.latches env = .done env')
    (hl : latch ∈ c.latches) :
    env'.values[latchOutput latch]? = if t = 0 then some false else env.values[latch]? := by
  have hv : ∀ a ∈ c.latches, ∀ e, AgreeOn {x | x ∉ c.latches.map latchOutput} env e →
      (latching t).value e a = (latching t).value env a := by
    intro a ha e he
    have hn : a ∉ c.latches.map latchOutput := fun hm => hs.latches a hm ha
    simp only [latching, Environment.get_congr (he.values a hn)]
  have hn : ∀ a ∈ c.latches, ∀ b ∈ c.latches, latchOutput a = latchOutput b →
      (latching t).value env a = (latching t).value env b := by
    intro a _ b _ hab
    rw [latchOutput_injective hab]
  obtain ⟨b, hb, hout⟩ := Assignment.value_of_run hv hn h hl
  rw [show latchOutput latch = (latching t).name latch from rfl, hout]
  by_cases ht : t = 0
  · simp only [latching, ht, ↓reduceIte, Except.ok.injEq] at hb
    simp [ht, hb]
  · simp only [latching, ht, ↓reduceIte] at hb
    rw [if_neg ht, Environment.get_eq_ok.mp hb]

theorem Settles.input_value (h : c.Settles t env env') (hx : x ∈ c.inputs)
    (hl : x ∉ c.latchOutputs) (hu : x ∉ c.targets) : env'.values[x]? = c.stimulusAt x t := by
  obtain ⟨driven, latched, hd, hp, hr⟩ := h
  rw [(Assignment.rebinds_of_run hr).frame x hu, (Assignment.rebinds_of_run hp).frame x hl]
  exact value_of_driving hd hx

theorem Settles.latchOutput_value (hs : c.Separate) (h : c.Settles t env env')
    (hl : latch ∈ c.latches) : env'.values[latchOutput latch]? =
      if t = 0 then some false
      else if latch ∈ c.inputs then c.stimulusAt latch t else env.values[latch]? := by
  obtain ⟨driven, latched, hd, hp, hr⟩ := h
  have hm : latchOutput latch ∈ c.latchOutputs := List.mem_map_of_mem hl
  rw [(Assignment.rebinds_of_run hr).frame _ (hs.targets _ hm), value_of_latching hs hp hl]
  by_cases hi : latch ∈ c.inputs
  · rw [if_pos hi, value_of_driving hd hi]
  · rw [if_neg hi, (Assignment.rebinds_of_run hd).frame]
    simpa [driving] using hi

end Circuit

namespace Simulation

variable {c : Circuit} {latch : Name}

/-- A latch output is `0` at first. One cycle later it is what the latch was, unless the latch is
an input: then it is what drives the input now, which the latch may have been before or not. -/
theorem latch_delay (hs : c.Separate) (hl : latch ∈ c.latches) :
    (∀ s, Clocked c s → s.phase = .cycle 0 → s.peek (latchOutput latch) = .ok false) ∧
    ∀ t s s', Successive c t s s' →
      (latch ∈ c.inputs →
        ∃ b, c.stimulusAt latch (t + 1) = some b ∧ s'.peek (latchOutput latch) = .ok b) ∧
      (s'.peek (latchOutput latch) = s.peek latch ↔
        latch ∉ c.inputs ∨ c.stimulusAt latch (t + 1) = s.environment.values[latch]?) := by
  constructor
  · intro s h hp
    have hv := (h.first hp).1.latchOutput_value hs hl
    exact Environment.get_eq_ok.mpr hv
  intro t s s' h
  have hv := h.settles.latchOutput_value hs hl
  have hm : latchOutput latch ∈ c.signals :=
    Circuit.mem_signals.mpr (Or.inr (Or.inl (List.mem_map_of_mem hl)))
  obtain ⟨b, hb⟩ := Environment.binds_iff.mp (h.settles.binds hm)
  have hout : s'.peek (latchOutput latch) = .ok b := Environment.get_eq_ok.mpr hb
  have hsame : s'.peek (latchOutput latch) = s.peek latch ↔
      s.environment.values[latch]? = some b := by
    rw [hout, eq_comm]
    exact Environment.get_eq_ok
  rw [hb, if_neg (Nat.succ_ne_zero t)] at hv
  by_cases hi : latch ∈ c.inputs
  · rw [if_pos hi] at hv
    refine ⟨fun _ => ⟨b, hv.symm, hout⟩, ?_⟩
    rw [hsame, ← hv]
    simp [hi, eq_comm]
  · rw [if_neg hi] at hv
    exact ⟨fun hn => (hi hn).elim, fun _ => Or.inl hi, fun _ => hsame.mpr hv.symm⟩

/-- Its latch is the input, driven by `0` and then by `1`. -/
def follower : Circuit where
  name := "follower"
  inputs := ["A"]
  outputs := ["B"]
  latches := ["A"]
  definitions := .empty
  updates := [⟨"B", .signal "A'"⟩]
  stimuli := [.ofValues "A" [false, true]]
  recorded := [.unset "B" 2]
  length := 2
  length_eq := by decide

theorem successive_follower :
    Successive follower 0 (after follower [.clock]) (after follower [.clock, .clock]) :=
  ⟨Clocked.start.clock rfl, rfl, rfl, rfl⟩

theorem latch_delay_follower :
    follower.Separate ∧ "A" ∈ follower.latches ∧
      (after follower [.clock]).peek "A'" = .ok false ∧
      (after follower [.clock, .clock]).peek "A'" = .ok true ∧
      (after follower [.clock, .clock]).peek "A'" ≠ (after follower [.clock]).peek "A" := by
  have hs : follower.Separate := ⟨by decide, by decide, by decide⟩
  have hl : "A" ∈ follower.latches := by decide
  obtain ⟨first, next⟩ := latch_delay hs hl
  obtain ⟨driven, same⟩ := next 0 _ _ successive_follower
  obtain ⟨b, hb, hp⟩ := driven (by decide)
  obtain rfl : true = b := Option.some.inj hb
  refine ⟨hs, hl, first _ successive_follower.clocked rfl, hp, fun h => ?_⟩
  rcases same.mp h with hn | hv
  · exact hn (by decide)
  · exact absurd hv (by decide)

theorem not_latch_delay_of_driven : ¬ ∀ (c : Circuit) (latch : Name) (t : ℕ) (s s' : Simulation),
    c.Separate → latch ∈ c.latches → Successive c t s s' →
      s'.peek (latchOutput latch) = s.peek latch := by
  intro h
  have hs : follower.Separate := ⟨by decide, by decide, by decide⟩
  exact absurd (h follower "A" 0 _ _ hs (by decide) successive_follower) (by decide)

end Simulation

end SyncCircuit
