import SyncCircuit.Proofs.Commutation
import SyncCircuit.Proofs.Imitation
import SyncCircuit.Proofs.Progress

/-!
The order of declarations. Inputs and latches can be declared in any order, definitions that later
ones replace and traces that nothing looks up make no difference: a simulation does the same.
-/

namespace SyncCircuit

/-- The descriptions declare the same inputs and latches, mean the same by the names of functions,
and drive each input by the same trace. Updates and outputs stand in one order in both. -/
structure Program.SameDeclarations (p q : Program) : Prop where
  inputs : p.inputs.Perm q.inputs
  outputs : p.outputs = q.outputs
  latches : p.latches.Perm q.latches
  separate : ∀ x ∈ p.latches, latchOutput x ∉ p.latches
  definitions : ∀ f, p.definition? f = q.definition? f
  updates : p.updates = q.updates
  stimuli : ∀ x ∈ p.inputs, p.stimuli.find? (·.signal = x) = q.stimuli.find? (·.signal = x)

theorem Program.SameDeclarations.symm {p q : Program} (h : p.SameDeclarations q) :
    q.SameDeclarations p where
  inputs := h.inputs.symm
  outputs := h.outputs.symm
  latches := h.latches.symm
  separate x hx hn := h.separate x (h.latches.mem_iff.mpr hx) (h.latches.mem_iff.mpr hn)
  definitions f := (h.definitions f).symm
  updates := h.updates.symm
  stimuli x hx := (h.stimuli x (h.inputs.mem_iff.mpr hx)).symm

theorem commute_driving {x y : Name} (h : x ≠ y) (c : Circuit) (t : ℕ) :
    (c.driving t).Commute x y :=
  ⟨h, fun _ _ => rfl, fun _ _ => rfl⟩

theorem commute_latching {x y : Name} (h : x ≠ y) (hx : latchOutput x ≠ y)
    (hy : latchOutput y ≠ x) (t : ℕ) : (latching t).Commute x y := by
  apply Assignment.commute_of_reads fun x => {x}
  · intro z env env' hag
    unfold latching
    split
    · rfl
    · exact Environment.get_congr (hag.values z rfl)
  · exact fun heq => h (latchOutput_injective heq)
  · exact hx
  · exact hy

theorem sameRun_latches {xs ys : List Name} (hp : xs.Perm ys)
    (hs : ∀ x ∈ xs, latchOutput x ∉ xs) (t : ℕ) : (latching t).SameRun xs ys := by
  have hne : ∀ x ∈ xs, ∀ y ∈ xs, latchOutput x ≠ y := by
    rintro x hx y hy rfl
    exact hs x hx hy
  apply Assignment.sameRun_of_perm hp
  intro x hx y hy hxy
  exact commute_latching hxy (hne x hx y hy) (hne y hy x hx) t

namespace Circuit

variable {p q : Program} {c d : Circuit}

theorem follows_of_sameDeclarations (h : p.SameDeclarations q) (hc : c.Describes p)
    (hd : d.Describes q) (hl : c.length = d.length) : c.Follows d where
  outputs := by rw [hd.outputs, ← h.outputs, hc.outputs]
  length := hl.symm
  drives t env env' hr := by
    have hsame : (c.driving t).SameRun p.inputs q.inputs :=
      Assignment.sameRun_of_perm h.inputs fun x _ y _ hxy => commute_driving hxy c t
    rw [hc.inputs, hsame env env'] at hr
    rw [hd.inputs, ← hr]
    refine Outcome.each_congr (fun e x hx => ?_) env
    have hx := h.stimuli x (h.inputs.mem_iff.mpr hx)
    simp only [Assignment.step, driving, hc.stimulusAt, hd.stimulusAt, hx]
  latches t env env' hr := by
    rw [hc.latches] at hr
    rw [hd.latches]
    exact (sameRun_latches h.latches h.separate t env env').mp hr
  updates env env' hdefs hr := by
    rw [hc.updates, h.updates] at hr
    rw [hd.updates]
    refine Assignment.run_under (fun _ => rfl) (fun u _ e he => ?_) hr
    apply Expr.eval_under
    intro f
    rw [he, hdefs, hc.find?, hd.find?]
    exact h.definitions f

/-- Descriptions with the same declarations, whatever their order: the simulation of one succeeds if
and only if that of the other does, with the same outputs. -/
theorem simulate_sameDeclarations (h : p.SameDeclarations q) (hc : ofProgram p = .ok c)
    (hd : ofProgram q = .ok d) (hl : c.length = d.length) :
    (c.simulate.fault = none ↔ d.simulate.fault = none) ∧
      ∀ c' d', c.simulate = .done c' → d.simulate = .done d' → c'.recorded = d'.recorded := by
  have hc := ofProgram_eq_ok_iff.mp hc
  have hd := ofProgram_eq_ok_iff.mp hd
  apply simulate_of_follows
  · exact follows_of_sameDeclarations h hc hd hl
  · exact follows_of_sameDeclarations h.symm hd hc hl.symm

def plain : Program where
  name := "plain"
  inputs := ["A", "B"]
  outputs := ["S"]
  latches := ["S", "L"]
  definitions := [⟨"f", ["X"], .not (.signal "X")⟩,
    ⟨"g", ["X", "Y"], .and (.call "f" [.signal "X"]) (.signal "Y")⟩]
  updates := [⟨"S", .or (.call "g" [.signal "A", .signal "L'"]) (.signal "S'")⟩,
    ⟨"L", .signal "B"⟩]
  stimuli := [.ofValues "A" [true, false, false], .ofValues "B" [true, false, true]]

/-- The first definition of `f`, the second trace of `A` and the trace of `C` come to nothing. -/
def redundant : Program where
  name := "redundant"
  inputs := ["B", "A"]
  outputs := ["S"]
  latches := ["L", "S"]
  definitions := [⟨"f", ["Y"], .signal "Z"⟩,
    ⟨"g", ["X", "Y"], .and (.call "f" [.signal "X"]) (.signal "Y")⟩,
    ⟨"f", ["X"], .not (.signal "X")⟩]
  updates := plain.updates
  stimuli := [.ofValues "C" [true, true, true], .ofValues "B" [true, false, true],
    .ofValues "A" [true, false, false], .ofValues "A" [false, true, true]]

theorem plain_sameDeclarations : plain.SameDeclarations redundant where
  inputs := List.Perm.swap "B" "A" []
  outputs := rfl
  latches := List.Perm.swap "L" "S" []
  separate := by decide
  definitions f := by
    by_cases hf : f = "f"
    · subst hf
      rfl
    · by_cases hg : f = "g"
      · subst hg
        rfl
      · have hf : "f" ≠ f := Ne.symm hf
        have hg : "g" ≠ f := Ne.symm hg
        simp [Program.definition?, plain, redundant, hf, hg]
  updates := rfl
  stimuli := by decide

theorem simulate_sameDeclarations_redundant : plain.SameDeclarations redundant ∧
    ∃ c d d', ofProgram plain = .ok c ∧ ofProgram redundant = .ok d ∧ d.simulate = .done d' ∧
      d'.recorded = [.ofValues "S" [false, true, true]] := by
  obtain ⟨c, hc⟩ : ∃ c, ofProgram plain = .ok c := ⟨_, rfl⟩
  obtain ⟨d, hd⟩ : ∃ d, ofProgram redundant = .ok d := ⟨_, rfl⟩
  have hl : c.length = d.length := by
    cases hc
    cases hd
    rfl
  have hs : c.simulate = .done { c with recorded := [.ofValues "S" [false, true, true]] } := by
    cases hc
    rfl
  obtain ⟨hfault, hsame⟩ := simulate_sameDeclarations plain_sameDeclarations hc hd hl
  have hr := Outcome.eq_done_of_fault (hfault.mp (by rw [hs]; rfl))
  exact ⟨plain_sameDeclarations, c, d, _, hc, hd, hr, (hsame _ _ hs hr).symm⟩

end Circuit

end SyncCircuit
