import Mathlib.Data.List.FinRange
import Mathlib.Logic.Equiv.Basic
import SyncCircuit.Proofs.Commutation
import SyncCircuit.Proofs.Imitation

/-!
The order of updates. What a simulation does is the same for all orders of the updates in which
those that depend on each other stand the same way round.
-/

namespace SyncCircuit

/-- Both updates bind one signal, or one of them binds a signal that stands in the other. -/
def Update.Dependent (u v : Update) : Prop :=
  u.target = v.target ∨ u.target ∈ v.value.signals ∨ v.target ∈ u.value.signals

instance (u v : Update) : Decidable (u.Dependent v) :=
  inferInstanceAs (Decidable (_ ∨ _ ∨ _))

theorem commute_updating {u v : Update} (h : ¬ u.Dependent v) : updating.Commute u v := by
  unfold Update.Dependent at h
  rw [not_or, not_or] at h
  obtain ⟨htarget, hu, hv⟩ := h
  apply Assignment.commute_of_reads fun u => u.value.reads
  · exact fun u _ _ h => Expr.eval_congr u.value h
  · exact htarget
  · exact hu
  · exact hv

namespace Assignment

variable {α β : Type}

/-- A pass over the values of a function at some places. -/
def comap (A : Assignment α) (f : β → α) : Assignment β where
  name b := A.name (f b)
  value env b := A.value env (f b)

theorem run_comap_eq_done {A : Assignment α} {f : β → α} {bs : List β} {env env' : Environment} :
    (A.comap f).run bs env = .done env' ↔ A.run (bs.map f) env = .done env' := by
  induction bs generalizing env with
  | nil => exact Iff.rfl
  | cons b bs ih =>
    rw [List.map_cons, run_cons_eq_done, run_cons_eq_done]
    exact exists_congr fun v => and_congr_right fun _ => ih

theorem commute_comap {A : Assignment α} {f : β → α} {a b : β} (h : A.Commute (f a) (f b)) :
    (A.comap f).Commute a b :=
  ⟨h.names, h.left, h.right⟩

end Assignment

/-- An order of the places of some updates, in which those that depend on each other do not change
places. -/
structure Reordering (us : List Update) where
  order : Equiv.Perm (Fin us.length)
  keeps : ∀ i j, i < j → (us.get (order i)).Dependent (us.get (order j)) → order i < order j

namespace Reordering

variable {us : List Update}

/-- The place `i` gets the update that was at the place `order i`. -/
def updates (r : Reordering us) : List Update := List.ofFn fun i => us.get (r.order i)

/-- The places are visited in another order; the updates at them stay where they are. -/
theorem sameRun_updates (r : Reordering us) : updating.SameRun us r.updates := by
  have hold : (List.finRange us.length).map us.get = us := List.map_get_finRange us
  have hnew : ((List.finRange us.length).map r.order).map us.get = r.updates := by
    rw [List.map_map, updates, List.ofFn_eq_map]
    rfl
  have hperm := r.order.map_finRange_perm.symm
  have hpairs : ((List.finRange us.length).map r.order).Pairwise fun i j =>
      j < i → (updating.comap us.get).Commute i j := by
    refine List.pairwise_map.mpr ((List.pairwise_lt_finRange _).imp fun {i j} hij hlt => ?_)
    apply Assignment.commute_comap
    apply commute_updating
    intro hdep
    exact absurd (r.keeps i j hij hdep) (not_lt_of_gt hlt)
  have hsame := Assignment.sameRun_of_pairwise (List.pairwise_lt_finRange _) hperm hpairs
  intro env env'
  have h := hsame env env'
  rwa [Assignment.run_comap_eq_done, Assignment.run_comap_eq_done, hold, hnew] at h

end Reordering

namespace Circuit

open Simulation (stateAt)

variable {c : Circuit} {us vs : List Update}

def withUpdates (c : Circuit) (us : List Update) : Circuit := { c with updates := us }

theorem follows_of_sameRun (h : updating.SameRun c.updates us) : c.Follows (c.withUpdates us) where
  outputs := rfl
  length := rfl
  drives _ _ _ hr := hr
  latches _ _ _ hr := hr
  updates env env' hd hr := by
    have hd' := (Assignment.rebinds_of_run hr).definitions.trans hd
    have hrun : updating.run us env = .done env' := (h env env').mp hr
    rw [← Environment.under_self hd, ← Environment.under_self hd'] at hrun
    exact hrun

/-- Updates in another order, as long as those that depend on each other do not change places: the
simulation succeeds if and only if it did, with the same outputs and the same environment after
every cycle. -/
theorem simulate_reordered (c : Circuit) (r : Reordering c.updates) :
    (c.simulate.fault = none ↔ (c.withUpdates r.updates).simulate.fault = none) ∧
      ∀ c' d', c.simulate = .done c' → (c.withUpdates r.updates).simulate = .done d' →
        c'.recorded = d'.recorded ∧ ∀ t < c.length,
          (stateAt c t).environment = (stateAt (c.withUpdates r.updates) t).environment := by
  have hsame := r.sameRun_updates
  have hthere : c.Follows (c.withUpdates r.updates) := follows_of_sameRun hsame
  have hback : (c.withUpdates r.updates).Follows c :=
    follows_of_sameRun (c := c.withUpdates r.updates) hsame.symm
  obtain ⟨hfault, hrecorded⟩ := simulate_of_follows hthere hback
  refine ⟨hfault, fun c' d' hc hd => ⟨hrecorded c' d' hc hd, fun t ht => ?_⟩⟩
  rw [← hthere.stateAt hc ht]
  exact (Environment.under_self (clocked_of_simulate hc ht).1.coherent.definitions).symm

/-- The first two updates have nothing to do with each other, nor have the last two. -/
def stages : Circuit where
  name := "stages"
  inputs := ["A", "B"]
  outputs := ["S"]
  latches := ["L"]
  definitions := .empty
  updates := [⟨"T", .and (.signal "A") (.signal "B")⟩, ⟨"U", .or (.signal "B") (.signal "L'")⟩,
    ⟨"S", .and (.not (.signal "T")) (.signal "U")⟩, ⟨"L", .signal "A"⟩]
  stimuli := [.ofValues "A" [true, true, false], .ofValues "B" [false, true, false]]
  recorded := [.unset "S" 3]
  length := 3
  length_eq := by decide

def exchanged : Reordering stages.updates where
  order := (Equiv.swap (0 : Fin 4) 1).trans (Equiv.swap 2 3)
  keeps := by decide

theorem simulate_reordered_stages :
    exchanged.updates.map Update.target = ["U", "T", "L", "S"] ∧
      stages.simulate = .done { stages with recorded := [.ofValues "S" [false, false, true]] } ∧
      ∃ d', (stages.withUpdates exchanged.updates).simulate = .done d' ∧
        d'.recorded = [.ofValues "S" [false, false, true]] ∧ ∀ t < 3,
          (stateAt stages t).environment =
            (stateAt (stages.withUpdates exchanged.updates) t).environment := by
  have h : stages.simulate =
      .done { stages with recorded := [.ofValues "S" [false, false, true]] } := rfl
  obtain ⟨hfault, hsame⟩ := simulate_reordered stages exchanged
  have hd := Outcome.eq_done_of_fault (hfault.mp (by rw [h]; rfl))
  obtain ⟨hrecorded, hstate⟩ := hsame _ _ h hd
  exact ⟨by decide, h, _, hd, hrecorded.symm, hstate⟩

end Circuit

end SyncCircuit
