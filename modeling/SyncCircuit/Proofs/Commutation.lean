import Mathlib.Data.List.Pairwise
import SyncCircuit.Proofs.Assignment

/-!
When the order of a pass does not matter. Two items commute if they bind different names and neither
reads the name of the other. A pass may take its items in any order in which no two items that do
not commute change places.
-/

namespace SyncCircuit

namespace Environment

theorem eq_of_values {env env' : Environment} (hd : env.definitions = env'.definitions)
    (hv : ∀ x : Name, env.values[x]? = env'.values[x]?) : env = env' := by
  obtain ⟨ds, vs⟩ := env
  obtain ⟨ds', vs'⟩ := env'
  obtain rfl : vs = vs' := Std.ExtTreeMap.ext_getElem? hv
  obtain rfl : ds = ds' := hd
  rfl

theorem bind_comm {x y : Name} (h : x ≠ y) (env : Environment) (b c : Bool) :
    (env.bind x b).bind y c = (env.bind y c).bind x b := by
  refine eq_of_values rfl fun z => ?_
  simp only [bind_values]
  by_cases hx : x = z
  · have hy : y ≠ z := fun hy => h (hx.trans hy.symm)
    simp [hx, hy]
  · simp [hx]

end Environment

namespace Assignment

variable {α : Type} {A : Assignment α}

/-- Whichever of the two items comes first, both have the values they have now. -/
structure Commute (A : Assignment α) (a b : α) : Prop where
  names : A.name a ≠ A.name b
  left : ∀ env v, A.value (env.bind (A.name b) v) a = A.value env a
  right : ∀ env v, A.value (env.bind (A.name a) v) b = A.value env b

theorem Commute.symm {a b : α} (h : A.Commute a b) : A.Commute b a :=
  ⟨h.names.symm, h.right, h.left⟩

theorem commute_of_reads (reads : α → Set Name) {a b : α}
    (hreads : ∀ c env env', Environment.AgreeOn (reads c) env env' → A.value env c = A.value env' c)
    (hn : A.name a ≠ A.name b) (ha : A.name a ∉ reads b) (hb : A.name b ∉ reads a) :
    A.Commute a b := by
  have aux : ∀ c x, x ∉ reads c → ∀ (env : Environment) v,
      A.value (env.bind x v) c = A.value env c := by
    intro c x hx env v
    refine hreads c _ _ ⟨rfl, fun y hy => ?_⟩
    apply Environment.bind_values_of_ne
    rintro rfl
    exact hx hy
  exact ⟨hn, aux a _ hb, aux b _ ha⟩

/-- The passes do the same wherever they succeed. -/
def SameRun (A : Assignment α) (as bs : List α) : Prop :=
  ∀ env env', A.run as env = .done env' ↔ A.run bs env = .done env'

namespace SameRun

variable {as bs cs : List α}

theorem refl (as : List α) : A.SameRun as as := fun _ _ => Iff.rfl

theorem symm (h : A.SameRun as bs) : A.SameRun bs as := fun env env' => (h env env').symm

theorem trans (h : A.SameRun as bs) (k : A.SameRun bs cs) : A.SameRun as cs :=
  fun env env' => (h env env').trans (k env env')

theorem cons (a : α) (h : A.SameRun as bs) : A.SameRun (a :: as) (a :: bs) := by
  intro env env'
  simp only [run_cons_eq_done]
  exact exists_congr fun b => and_congr_right fun _ => h _ _

theorem swap {a b : α} (h : A.Commute a b) (as : List α) :
    A.SameRun (a :: b :: as) (b :: a :: as) := by
  have aux : ∀ {a b : α}, A.Commute a b → ∀ env env',
      A.run (a :: b :: as) env = .done env' → A.run (b :: a :: as) env = .done env' := by
    intro a b h env env' hr
    obtain ⟨v, hv, hr⟩ := run_cons_eq_done.mp hr
    obtain ⟨w, hw, hr⟩ := run_cons_eq_done.mp hr
    rw [h.right] at hw
    rw [Environment.bind_comm h.names] at hr
    refine run_cons_eq_done.mpr ⟨w, hw, run_cons_eq_done.mpr ⟨v, ?_, hr⟩⟩
    rw [h.left]
    exact hv
  intro env env'
  exact ⟨aux h env env', aux h.symm env env'⟩

theorem moveToFront {b : α} (h : ∀ a ∈ as, A.Commute a b) (cs : List α) :
    A.SameRun (as ++ b :: cs) (b :: (as ++ cs)) := by
  induction as with
  | nil => exact refl _
  | cons a as ih =>
    obtain ⟨ha, has⟩ := List.forall_mem_cons.mp h
    exact ((ih has).cons a).trans (swap ha _)

end SameRun

theorem sameRun_of_perm {as bs : List α} (hp : as.Perm bs)
    (h : ∀ a ∈ as, ∀ b ∈ as, a ≠ b → A.Commute a b) : A.SameRun as bs := by
  induction hp with
  | nil => exact SameRun.refl _
  | cons a _ ih =>
    apply SameRun.cons a
    exact ih fun b hb c hc => h b (List.mem_cons_of_mem a hb) c (List.mem_cons_of_mem a hc)
  | swap a b as =>
    by_cases hab : b = a
    · rw [hab]
      exact SameRun.refl _
    · exact SameRun.swap (h b (by simp) a (by simp) hab) as
  | trans hp _ ih₁ ih₂ =>
    apply (ih₁ h).trans (ih₂ _)
    exact fun b hb c hc => h b (hp.mem_iff.mpr hb) c (hp.mem_iff.mpr hc)

/-- A pass over ordered items can take them in any order in which only items that commute stand the
other way round. -/
theorem sameRun_of_pairwise [LinearOrder α] {as bs : List α} (has : as.Pairwise (· < ·))
    (hp : as.Perm bs) (hbs : bs.Pairwise fun a b => b < a → A.Commute a b) : A.SameRun as bs := by
  -- The first item of the new order passes those before it in the old one.
  induction bs generalizing as with
  | nil =>
    rw [hp.eq_nil]
    exact SameRun.refl _
  | cons b bs ih =>
    obtain ⟨front, back, rfl⟩ := List.append_of_mem (hp.mem_iff.mpr List.mem_cons_self)
    obtain ⟨hb, hbs⟩ := List.pairwise_cons.mp hbs
    have hrest : (front ++ back).Perm bs := (List.perm_middle.symm.trans hp).cons_inv
    have hfront : ∀ a ∈ front, A.Commute a b := by
      intro a ha
      have hlt : a < b := (List.pairwise_append.mp has).2.2 a ha b List.mem_cons_self
      exact (hb a (hrest.mem_iff.mp (List.mem_append_left back ha)) hlt).symm
    have hsorted : (front ++ back).Pairwise (· < ·) :=
      has.sublist (List.Sublist.append_left (List.sublist_cons_self b back) front)
    exact (SameRun.moveToFront hfront back).trans ((ih hsorted hrest hbs).cons b)

end Assignment

end SyncCircuit
