import SyncCircuit.Outcome
import SyncCircuit.Proofs.Environment
import SyncCircuit.Proofs.Outcome

/-!
Passes over a list that bind one name for each item. Such a pass leaves other names alone and never
unbinds one; two passes whose items read only what is bound alike end with the same values.
-/

namespace SyncCircuit

namespace Environment

/-- The second environment comes from the first by binding some of the names. -/
structure Rebinds (names : List Name) (env env' : Environment) : Prop where
  definitions : env'.definitions = env.definitions
  frame : ∀ x ∉ names, env'.values[x]? = env.values[x]?
  grows : ∀ x, env.binds x → env'.binds x

variable {names : List Name} {env env' env'' : Environment}

theorem Rebinds.refl (names : List Name) (env : Environment) : Rebinds names env env :=
  ⟨rfl, fun _ _ => rfl, fun _ h => h⟩

theorem Rebinds.trans (h : Rebinds names env env') (k : Rebinds names env' env'') :
    Rebinds names env env'' :=
  ⟨k.definitions.trans h.definitions, fun x hx => (k.frame x hx).trans (h.frame x hx),
    fun x hx => k.grows x (h.grows x hx)⟩

theorem Rebinds.mono {names' : List Name} (h : Rebinds names env env') (hs : names ⊆ names') :
    Rebinds names' env env' :=
  ⟨h.definitions, fun x hx => h.frame x fun hn => hx (hs hn), h.grows⟩

theorem Rebinds.bind {x : Name} (hx : x ∈ names) (env : Environment) (b : Bool) :
    Rebinds names env (env.bind x b) := by
  refine ⟨rfl, fun y hy => ?_, fun y hy => ?_⟩
  · have hxy : x ≠ y := by
      rintro rfl
      exact hy hx
    exact bind_values_of_ne hxy env b
  · rw [binds_eq_isSome] at hy ⊢
    rw [bind_values]
    split
    · rfl
    · exact hy

theorem Rebinds.bound (h : Rebinds names env env') {x : Name} (hx : env'.binds x) :
    env.binds x ∨ x ∈ names := by
  by_cases hn : x ∈ names
  · exact Or.inr hn
  · rw [binds_eq_isSome, h.frame x hn, ← binds_eq_isSome] at hx
    exact Or.inl hx

end Environment

/-- What a pass binds for an item: a name, and a value that may depend on what is bound already. -/
structure Assignment (α : Type) where
  name : α → Name
  value : Environment → α → Except Fault Bool

namespace Assignment

open Environment (Rebinds AgreeOn)

variable {α : Type} {A B : Assignment α}

def step (A : Assignment α) (env : Environment) (a : α) : Except Fault Environment :=
  (A.value env a).map (env.bind (A.name a))

def run (A : Assignment α) (as : List α) (env : Environment) : Outcome Environment :=
  .each A.step as env

theorem step_eq_ok {env env' : Environment} {a : α} :
    A.step env a = .ok env' ↔ ∃ b, A.value env a = .ok b ∧ env' = env.bind (A.name a) b := by
  unfold step
  cases A.value env a <;> simp [Except.map, eq_comm]

theorem step_eq_error {env : Environment} {a : α} {f : Fault} :
    A.step env a = .error f ↔ A.value env a = .error f := by
  unfold step
  cases A.value env a <;> simp [Except.map]

theorem run_cons_eq_done {a : α} {as : List α} {env env' : Environment} :
    A.run (a :: as) env = .done env' ↔
      ∃ b, A.value env a = .ok b ∧ A.run as (env.bind (A.name a) b) = .done env' := by
  unfold run
  rw [Outcome.each_cons_eq_done]
  constructor
  · rintro ⟨r, hr, h⟩
    obtain ⟨b, hb, rfl⟩ := step_eq_ok.mp hr
    exact ⟨b, hb, h⟩
  · rintro ⟨b, hb, h⟩
    exact ⟨_, step_eq_ok.mpr ⟨b, hb, rfl⟩, h⟩

theorem run_rebinds (A : Assignment α) (as : List α) (env : Environment) :
    Rebinds (as.map A.name) env (A.run as env).state := by
  apply Outcome.each_state (P := Rebinds (as.map A.name) env)
  · intro s a ha r hr hs
    obtain ⟨b, _, rfl⟩ := step_eq_ok.mp hr
    exact hs.trans (Rebinds.bind (List.mem_map_of_mem ha) s b)
  · exact Rebinds.refl _ env

theorem rebinds_of_run {as : List α} {env env' : Environment} (h : A.run as env = .done env') :
    Rebinds (as.map A.name) env env' := by
  have hr := A.run_rebinds as env
  rwa [h] at hr

theorem run_stops {as : List α} {env : Environment} {f : Fault}
    (hf : (A.run as env).fault = some f) : ∃ a ∈ as, A.value (A.run as env).state a = .error f := by
  obtain ⟨a, ha, he⟩ := Outcome.each_stops hf
  exact ⟨a, ha, step_eq_error.mp he⟩

theorem run_fault {P : Fault → Prop} {as : List α}
    (hv : ∀ env, ∀ a ∈ as, ∀ f, A.value env a = .error f → P f) {env : Environment} {f : Fault}
    (hf : (A.run as env).fault = some f) : P f := by
  obtain ⟨a, ha, he⟩ := run_stops hf
  exact hv _ a ha f he

theorem binds_of_run {as : List α} {env env' : Environment} (h : A.run as env = .done env')
    {x : Name} (hx : x ∈ as.map A.name) : env'.binds x := by
  induction as generalizing env with
  | nil => simp at hx
  | cons a as ih =>
    obtain ⟨b, _, hr⟩ := run_cons_eq_done.mp h
    rcases List.mem_cons.mp hx with rfl | hx
    · exact (rebinds_of_run hr).grows _ (Environment.binds_iff.mpr ⟨b, by simp⟩)
    · exact ih hr hx

/-- When no item reads a name that the pass binds, all are bound to their values before the pass,
whatever the order. Items of one name must have one value. -/
theorem value_of_run {as : List α} {env env' : Environment}
    (hv : ∀ a ∈ as, ∀ e, AgreeOn {x | x ∉ as.map A.name} env e → A.value e a = A.value env a)
    (hn : ∀ a ∈ as, ∀ b ∈ as, A.name a = A.name b → A.value env a = A.value env b)
    (h : A.run as env = .done env') {a : α} (ha : a ∈ as) :
    ∃ b, A.value env a = .ok b ∧ env'.values[A.name a]? = some b := by
  -- The environment changes along the pass, but only at the names of the whole list.
  have aux : ∀ bs, bs ⊆ as → ∀ e, AgreeOn {x | x ∉ as.map A.name} env e →
      A.run bs e = .done env' → ∀ a ∈ bs,
      ∃ b, A.value env a = .ok b ∧ env'.values[A.name a]? = some b := by
    intro bs
    induction bs with
    | nil => simp
    | cons c bs ih =>
      intro hs e he hr a ha
      have hc : c ∈ as := hs List.mem_cons_self
      obtain ⟨b, hb, hr⟩ := run_cons_eq_done.mp hr
      rw [hv c hc e he] at hb
      have hbs : bs ⊆ as := fun d hd => hs (List.mem_cons_of_mem c hd)
      have he' : AgreeOn {x | x ∉ as.map A.name} env (e.bind (A.name c) b) := by
        refine ⟨he.definitions, fun x hx => (he.values x hx).trans ?_⟩
        have hrb := Rebinds.bind (List.mem_map_of_mem (f := A.name) hc) e b
        exact (hrb.frame x hx).symm
      have tail := ih hbs _ he' hr
      rcases List.mem_cons.mp ha with rfl | ha
      · by_cases hm : A.name a ∈ bs.map A.name
        · obtain ⟨d, hd, hda⟩ := List.mem_map.mp hm
          have hval := hn d (hbs hd) a hc hda
          rw [← hda, ← hval]
          exact tail d hd
        · refine ⟨b, hb, ?_⟩
          rw [(rebinds_of_run hr).frame _ hm]
          simp
      · exact tail a ha
  exact aux as (List.Subset.refl as) env ⟨rfl, fun _ _ => rfl⟩ h a ha

def Ordered (reads : α → Set Name) (name : α → Name) : Set Name → List α → Prop
  | _, [] => True
  | S, a :: as => reads a ⊆ S ∧ Ordered reads name (insert (name a) S) as

theorem ordered_of_subset {reads : α → Set Name} {name : α → Name} {S : Set Name} {as : List α}
    (h : ∀ a ∈ as, reads a ⊆ S) : Ordered reads name S as := by
  induction as generalizing S with
  | nil => trivial
  | cons a as ih =>
    refine ⟨h a List.mem_cons_self, ih fun b hb => ?_⟩
    exact (h b (List.mem_cons_of_mem a hb)).trans (Set.subset_insert _ _)

/-- Two passes in step: what one of them can do, the other can, and they agree on all they bind. -/
theorem run_agree {reads : α → Set Name} {S : Set Name} {as : List α} {env env' r : Environment}
    (hname : ∀ a, A.name a = B.name a)
    (hvalue : ∀ a ∈ as, ∀ e e', AgreeOn (reads a) e e' → A.value e a = B.value e' a)
    (ho : Ordered reads A.name S as) (hs : AgreeOn S env env') (hr : A.run as env = .done r) :
    ∃ r', B.run as env' = .done r' ∧ AgreeOn ({x | x ∈ as.map A.name} ∪ S) r r' := by
  induction as generalizing S env env' with
  | nil =>
    obtain rfl := Outcome.done_inj.mp hr
    exact ⟨env', rfl, by simpa using hs⟩
  | cons a as ih =>
    obtain ⟨b, hb, hr⟩ := run_cons_eq_done.mp hr
    have hb' : B.value env' a = .ok b :=
      (hvalue a List.mem_cons_self env env' (hs.mono ho.1)).symm.trans hb
    obtain ⟨r', hr', hag⟩ := ih (fun a ha => hvalue a (List.mem_cons_of_mem _ ha)) ho.2
      (hs.bind (A.name a) b) hr
    refine ⟨r', run_cons_eq_done.mpr ⟨b, hb', hname a ▸ hr'⟩, hag.mono ?_⟩
    intro x hx
    rcases hx with hx | hx
    · rcases List.mem_cons.mp hx with rfl | hx
      · exact Or.inr (Set.mem_insert _ _)
      · exact Or.inl hx
    · exact Or.inr (Set.mem_insert_of_mem _ hx)

/-- Two passes in step: where one of them stops, the other does, and what was alike before is alike
then. -/
theorem run_stops_agree {reads : α → Set Name} {S : Set Name} {as : List α}
    {env env' : Environment}
    (hvalue : ∀ a ∈ as, ∀ e e', AgreeOn (reads a) e e' → A.value e a = A.value e' a)
    (ho : Ordered reads A.name S as) (hs : AgreeOn S env env') :
    (A.run as env).fault = (A.run as env').fault ∧
      AgreeOn S (A.run as env).state (A.run as env').state := by
  induction as generalizing S env env' with
  | nil => exact ⟨rfl, hs⟩
  | cons a as ih =>
    have hv := hvalue a List.mem_cons_self env env' (hs.mono ho.1)
    unfold run
    cases hb : A.value env a with
    | error f =>
      rw [Outcome.each_cons_error (step_eq_error.mpr hb),
        Outcome.each_cons_error (step_eq_error.mpr (hv ▸ hb))]
      exact ⟨rfl, hs⟩
    | ok b =>
      rw [Outcome.each_cons_ok (step_eq_ok.mpr ⟨b, hb, rfl⟩),
        Outcome.each_cons_ok (step_eq_ok.mpr ⟨b, hv ▸ hb, rfl⟩)]
      obtain ⟨hf, hag⟩ := ih (fun a ha => hvalue a (List.mem_cons_of_mem _ ha)) ho.2
        (hs.bind (A.name a) b)
      exact ⟨hf, hag.mono (Set.subset_insert _ _)⟩

end Assignment

end SyncCircuit
