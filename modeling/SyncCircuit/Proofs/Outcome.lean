import Mathlib.Data.List.Forall2
import SyncCircuit.Outcome

/-!
When an outcome is a success, what a chain of outcomes preserves, and what a pass over a list does
to its items.
-/

namespace SyncCircuit

namespace Outcome

variable {σ τ α : Type}

theorem eq_done_iff {o : Outcome σ} {s : σ} : o = done s ↔ o.fault = none ∧ o.state = s := by
  cases o
  simp only [done, mk.injEq]
  exact and_comm

theorem eq_done_of_fault {o : Outcome σ} (h : o.fault = none) : o = done o.state :=
  eq_done_iff.mpr ⟨h, rfl⟩

@[simp] theorem done_inj {s t : σ} : done s = done t ↔ s = t := by simp [done]

@[simp] theorem done_andThen (s : σ) (next : σ → Outcome σ) : (done s).andThen next = next s := rfl

theorem andThen_of_fault {o : Outcome σ} {f : Fault} (h : o.fault = some f)
    (next : σ → Outcome σ) : o.andThen next = o := by
  simp [andThen, h]

@[simp] theorem andThen_eq_done {o : Outcome σ} {next : σ → Outcome σ} {s : σ} :
    o.andThen next = done s ↔ ∃ r, o = done r ∧ next r = done s := by
  constructor
  · intro h
    cases hf : o.fault with
    | none =>
      have ho := eq_done_of_fault hf
      rw [ho, done_andThen] at h
      exact ⟨_, ho, h⟩
    | some f =>
      rw [andThen_of_fault hf] at h
      rw [h] at hf
      cases hf
  · rintro ⟨r, rfl, h⟩
    exact h

@[simp] theorem map_eq_done {f : σ → τ} {o : Outcome σ} {t : τ} :
    o.map f = done t ↔ ∃ s, o = done s ∧ f s = t := by
  constructor
  · intro h
    obtain ⟨hf, hs⟩ := eq_done_iff.mp h
    exact ⟨o.state, eq_done_of_fault hf, hs⟩
  · rintro ⟨s, rfl, rfl⟩
    rfl

@[simp] theorem mapFault_eq_done {f : Fault → Fault} {o : Outcome σ} {s : σ} :
    o.mapFault f = done s ↔ o = done s := by
  simp [eq_done_iff]

theorem andThen_cases {o : Outcome σ} {next : σ → Outcome σ} {P : Outcome σ → Prop}
    (hf : ∀ f, o.fault = some f → P o) (hn : ∀ s, o = done s → P (next s)) :
    P (o.andThen next) := by
  cases h : o.fault with
  | none =>
    have ho := eq_done_of_fault h
    rw [ho, done_andThen]
    exact hn _ ho
  | some f =>
    rw [andThen_of_fault h]
    exact hf f h

theorem andThen_fault {o : Outcome σ} {next : σ → Outcome σ} {f : Fault} :
    (o.andThen next).fault = some f ↔
      o.fault = some f ∨ ∃ s, o = done s ∧ (next s).fault = some f := by
  cases hf : o.fault with
  | none =>
    have ho := eq_done_of_fault hf
    rw [ho, done_andThen]
    simp
  | some e =>
    rw [andThen_of_fault hf, hf]
    constructor
    · exact Or.inl
    · rintro (h | ⟨s, rfl, _⟩)
      · exact h
      · cases hf

theorem andThen_done (o : Outcome σ) : o.andThen done = o := by
  cases o with
  | mk s f => cases f <;> rfl

theorem andThen_congr {o : Outcome σ} {f g : σ → Outcome σ} (h : ∀ s, o = done s → f s = g s) :
    o.andThen f = o.andThen g := by
  cases hf : o.fault with
  | none =>
    have ho := eq_done_of_fault hf
    rw [ho, done_andThen, done_andThen]
    exact h _ ho
  | some e => rw [andThen_of_fault hf, andThen_of_fault hf]

theorem andThen_assoc (o : Outcome σ) (f g : σ → Outcome σ) :
    (o.andThen f).andThen g = o.andThen fun s => (f s).andThen g := by
  cases h : o.fault with
  | none => rw [eq_done_of_fault h, done_andThen, done_andThen]
  | some e => rw [andThen_of_fault h, andThen_of_fault h, andThen_of_fault h]

theorem fault_andThen (o : Outcome σ) (next : σ → Outcome σ) :
    (o.andThen next).fault = o.fault.or (next o.state).fault := by
  cases h : o.fault with
  | none =>
    rw [eq_done_of_fault h]
    rfl
  | some e =>
    rw [andThen_of_fault h, h]
    rfl

theorem map_mapFault (g : σ → τ) (f : Fault → Fault) (o : Outcome σ) :
    (o.map g).mapFault f = (o.mapFault f).map g := rfl

theorem mapFault_andThen (o : Outcome σ) (next : σ → Outcome σ) (f : Fault → Fault) :
    (o.andThen next).mapFault f = (o.mapFault f).andThen fun s => (next s).mapFault f := by
  cases h : o.fault with
  | none =>
    rw [eq_done_of_fault h]
    rfl
  | some e =>
    have hm : (o.mapFault f).fault = some (f e) := by simp [h]
    rw [andThen_of_fault h, andThen_of_fault hm]

theorem map_andThen {g : σ → τ} {o : Outcome σ} {next : σ → Outcome σ} {next' : τ → Outcome τ}
    (h : ∀ s, o = done s → next' (g s) = (next s).map g) :
    (o.map g).andThen next' = (o.andThen next).map g := by
  cases hf : o.fault with
  | none =>
    have ho := eq_done_of_fault hf
    rw [ho, done_andThen]
    exact h _ ho
  | some e => rw [andThen_of_fault hf, andThen_of_fault (by simpa using hf)]

section each

variable {step : σ → α → Except Fault σ}

theorem each_cons_ok {s r : σ} {a : α} (h : step s a = .ok r) (as : List α) :
    each step (a :: as) s = each step as r := by
  simp [each, h]

theorem each_cons_error {s : σ} {a : α} {f : Fault} (h : step s a = .error f) (as : List α) :
    each step (a :: as) s = ⟨s, some f⟩ := by
  simp [each, h]

theorem each_cons_eq_done {s t : σ} {a : α} {as : List α} :
    each step (a :: as) s = done t ↔ ∃ r, step s a = .ok r ∧ each step as r = done t := by
  cases h : step s a with
  | ok r => simp [each_cons_ok h]
  | error f => simp [each_cons_error h, done]

/-- What each step preserves holds wherever the pass stops, with or without a fault. -/
theorem each_state {P : σ → Prop} {as : List α}
    (hstep : ∀ s, ∀ a ∈ as, ∀ r, step s a = .ok r → P s → P r) {s : σ} (hs : P s) :
    P (each step as s).state := by
  induction as generalizing s with
  | nil => exact hs
  | cons a as ih =>
    cases h : step s a with
    | ok r =>
      rw [each_cons_ok h]
      exact ih (fun s b hb => hstep s b (List.mem_cons_of_mem a hb))
        (hstep s a List.mem_cons_self r h hs)
    | error f =>
      rw [each_cons_error h]
      exact hs

theorem each_stops {as : List α} {s : σ} {f : Fault} (hf : (each step as s).fault = some f) :
    ∃ a ∈ as, step (each step as s).state a = .error f := by
  induction as generalizing s with
  | nil => cases hf
  | cons a as ih =>
    cases h : step s a with
    | ok r =>
      rw [each_cons_ok h] at hf ⊢
      obtain ⟨b, hb, he⟩ := ih hf
      exact ⟨b, List.mem_cons_of_mem a hb, he⟩
    | error e =>
      rw [each_cons_error h] at hf ⊢
      cases hf
      exact ⟨a, List.mem_cons_self, h⟩

theorem each_congr {step step' : σ → α → Except Fault σ} {as : List α}
    (h : ∀ s, ∀ a ∈ as, step s a = step' s a) (s : σ) : each step as s = each step' as s := by
  induction as generalizing s with
  | nil => rfl
  | cons a as ih =>
    have hs := h s a List.mem_cons_self
    have tail := ih fun s b hb => h s b (List.mem_cons_of_mem a hb)
    cases hr : step s a with
    | ok r => rw [each_cons_ok hr, each_cons_ok (hs ▸ hr), tail]
    | error f => rw [each_cons_error hr, each_cons_error (hs ▸ hr)]

end each

section mapEach

variable {change : α → Except Fault α}

theorem mapEach_cons_ok {a b : α} (h : change a = .ok b) (as : List α) :
    mapEach change (a :: as) = (mapEach change as).map (b :: ·) := by
  simp [mapEach, h]

theorem mapEach_cons_error {a : α} {f : Fault} (h : change a = .error f) (as : List α) :
    mapEach change (a :: as) = ⟨a :: as, some f⟩ := by
  simp [mapEach, h]

theorem mapEach_state (as : List α) :
    List.Forall₂ (fun a b => b = a ∨ change a = .ok b) as (mapEach change as).state := by
  induction as with
  | nil => exact .nil
  | cons a as ih =>
    cases h : change a with
    | ok b =>
      rw [mapEach_cons_ok h]
      exact .cons (Or.inr h) ih
    | error f =>
      rw [mapEach_cons_error h]
      exact List.forall₂_same.mpr fun _ _ => Or.inl rfl

theorem mapEach_eq_done {as bs : List α} :
    mapEach change as = done bs ↔ List.Forall₂ (fun a b => change a = .ok b) as bs := by
  induction as generalizing bs with
  | nil => simp [mapEach, eq_comm]
  | cons a as ih =>
    cases h : change a with
    | ok b =>
      rw [mapEach_cons_ok h, map_eq_done, List.forall₂_cons_left_iff]
      constructor
      · rintro ⟨cs, hc, rfl⟩
        exact ⟨b, cs, h, ih.mp hc, rfl⟩
      · rintro ⟨b', cs, hb, hc, rfl⟩
        rw [h] at hb
        cases hb
        exact ⟨cs, ih.mpr hc, rfl⟩
    | error f =>
      rw [mapEach_cons_error h, List.forall₂_cons_left_iff]
      simp [done, h]

theorem mapEach_fault {P : Fault → Prop} {as : List α}
    (hc : ∀ a ∈ as, ∀ f, change a = .error f → P f) {f : Fault}
    (hf : (mapEach change as).fault = some f) : P f := by
  induction as with
  | nil => cases hf
  | cons a as ih =>
    cases h : change a with
    | ok b =>
      rw [mapEach_cons_ok h] at hf
      exact ih (fun b hb => hc b (List.mem_cons_of_mem a hb)) hf
    | error e =>
      rw [mapEach_cons_error h] at hf
      cases hf
      exact hc a List.mem_cons_self _ h

theorem mapEach_done {as : List α} (h : ∀ a ∈ as, ∃ b, change a = .ok b) :
    ∃ bs, mapEach change as = done bs := by
  cases hf : (mapEach change as).fault with
  | none => exact ⟨_, eq_done_of_fault hf⟩
  | some f =>
    have hno : ∀ a ∈ as, ∀ f, change a = .error f → False := by
      intro a ha f he
      obtain ⟨b, hb⟩ := h a ha
      rw [hb] at he
      cases he
    exact (mapEach_fault hno hf).elim

theorem mapEach_map {change change' : α → Except Fault α} {g : α → α} {as : List α}
    (h : ∀ a ∈ as, change' (g a) = (change a).map g) :
    mapEach change' (as.map g) = (mapEach change as).map (List.map g) := by
  induction as with
  | nil => rfl
  | cons a as ih =>
    have ha := h a List.mem_cons_self
    have tail := ih fun b hb => h b (List.mem_cons_of_mem a hb)
    rw [List.map_cons]
    cases hc : change a with
    | ok b =>
      rw [hc] at ha
      rw [mapEach_cons_ok ha, mapEach_cons_ok hc, tail]
      rfl
    | error f =>
      rw [hc] at ha
      rw [mapEach_cons_error ha, mapEach_cons_error hc]
      rfl

end mapEach

end Outcome

end SyncCircuit
