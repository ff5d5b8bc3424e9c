import Mathlib.Data.List.Basic
import SyncCircuit.Text.Pieces

/-!
Texts that were put together are taken apart again. A part ends where a mark comes that does not
occur in it, whether the mark stands between the parts or after each of them.
-/

namespace SyncCircuit

open Text (joined pieces)

section lists

variable {α β : Type} {u v r s : List α} {c d : α} {f : α → β} {as bs : List α}

theorem append_cons_inj {p : α → Prop} (hu : ∀ a ∈ u, ¬ p a) (hv : ∀ a ∈ v, ¬ p a) (hc : p c)
    (hd : p d) (h : u ++ c :: r = v ++ d :: s) : u = v ∧ c = d ∧ r = s := by
  induction u generalizing v with
  | nil =>
    cases v with
    | nil => exact ⟨rfl, List.cons.inj h⟩
    | cons b v =>
      obtain ⟨rfl, -⟩ := List.cons.inj h
      exact absurd hc (hv c List.mem_cons_self)
  | cons a u ih =>
    obtain ⟨ha, hu⟩ := List.forall_mem_cons.mp hu
    cases v with
    | nil =>
      obtain ⟨rfl, -⟩ := List.cons.inj h
      exact absurd hd ha
    | cons b v =>
      obtain ⟨rfl, htail⟩ := List.cons.inj h
      obtain ⟨rfl, hrest⟩ := ih hu (List.forall_mem_cons.mp hv).2 htail
      exact ⟨rfl, hrest⟩

theorem eq_of_map_eq (h : as.map f = bs.map f) (hf : ∀ a ∈ as, ∀ b ∈ bs, f a = f b → a = b) :
    as = bs := by
  induction as generalizing bs with
  | nil => exact (List.map_eq_nil_iff.mp h.symm).symm
  | cons a as ih =>
    cases bs with
    | nil => cases h
    | cons b bs =>
      obtain ⟨hab, htail⟩ := List.cons.inj h
      rw [hf a List.mem_cons_self b List.mem_cons_self hab, ih htail fun a ha b hb =>
        hf a (List.mem_cons_of_mem _ ha) b (List.mem_cons_of_mem _ hb)]

end lists

theorem pieces_ne_nil (c : Char) (u : List Char) : pieces c u ≠ [] := by
  cases u with
  | nil => exact List.cons_ne_nil [] []
  | cons d u =>
    rw [pieces]
    split
    · exact List.cons_ne_nil _ _
    · split <;> exact List.cons_ne_nil _ _

theorem pieces_of_notMem {c : Char} {u : List Char} (h : c ∉ u) : pieces c u = [u] := by
  induction u with
  | nil => rfl
  | cons d u ih =>
    obtain ⟨hd, hu⟩ := List.ne_and_not_mem_of_not_mem_cons h
    rw [pieces, if_neg (Ne.symm hd), ih hu]

theorem pieces_append_cons (c : Char) (u rest : List Char) :
    pieces c (u ++ c :: rest) = pieces c u ++ pieces c rest := by
  induction u with
  | nil => simp [pieces]
  | cons d u ih =>
    rw [List.cons_append, pieces, pieces, ih]
    split
    · rfl
    · obtain ⟨p, ps, hps⟩ := List.exists_cons_of_ne_nil (pieces_ne_nil c u)
      rw [hps]
      rfl

theorem pieces_append {c : Char} {u rest : List Char} (h : c ∉ u) :
    pieces c (u ++ c :: rest) = u :: pieces c rest := by
  rw [pieces_append_cons, pieces_of_notMem h, List.singleton_append]

theorem notMem_of_mem_pieces {c : Char} {u v : List Char} (h : v ∈ pieces c u) : c ∉ v := by
  induction u generalizing v with
  | nil => simp_all [pieces]
  | cons d u ih =>
    rw [pieces] at h
    split at h
    · rcases List.mem_cons.mp h with rfl | h
      · exact List.not_mem_nil
      · exact ih h
    · next hd =>
      obtain ⟨p, ps, hps⟩ := List.exists_cons_of_ne_nil (pieces_ne_nil c u)
      rw [hps] at h ih
      rcases List.mem_cons.mp h with rfl | h
      · exact List.not_mem_cons_of_ne_of_not_mem (Ne.symm hd) (ih List.mem_cons_self)
      · exact ih (List.mem_cons_of_mem p h)

theorem filter_pieces_joined {ss : List String} (h : ∀ s ∈ ss, s.toList ≠ [] ∧ ' ' ∉ s.toList) :
    (pieces ' ' (joined " " ss).toList).filter (· ≠ []) = ss.map String.toList := by
  induction ss with
  | nil => rfl
  | cons s ss ih =>
    obtain ⟨⟨hne, hs⟩, hss⟩ := List.forall_mem_cons.mp h
    cases ss with
    | nil => simp [joined, pieces_of_notMem hs, hne]
    | cons t ss =>
      have htext : (joined " " (s :: t :: ss)).toList =
          s.toList ++ ' ' :: (joined " " (t :: ss)).toList := by
        simp [joined]
      rw [htext, pieces_append hs, List.filter_cons_of_pos (by simpa using hne), ih hss]
      rfl

def terminated (ending : String) (ss : List String) : String :=
  ss.foldr (fun s rest => s ++ ending ++ rest) ""

section terminated

variable {c : Char} {ending : String} {ss ts : List String}

theorem toList_terminated_cons (hending : ending.toList = [c]) (s : String) (ss : List String) :
    (terminated ending (s :: ss)).toList = s.toList ++ c :: (terminated ending ss).toList := by
  simp [terminated, String.toList_append, hending]

theorem terminated_append (ending : String) (ss ts : List String) :
    terminated ending (ss ++ ts) = terminated ending ss ++ terminated ending ts := by
  induction ss with
  | nil => simp [terminated]
  | cons s ss ih =>
    simp only [terminated, List.cons_append, List.foldr_cons, String.append_assoc] at ih ⊢
    rw [ih]

theorem pieces_terminated (hending : ending.toList = [c]) (h : ∀ s ∈ ss, c ∉ s.toList) :
    pieces c (terminated ending ss).toList = ss.map String.toList ++ [[]] := by
  induction ss with
  | nil => rfl
  | cons s ss ih =>
    obtain ⟨hs, hss⟩ := List.forall_mem_cons.mp h
    rw [toList_terminated_cons hending, pieces_append hs, ih hss, List.map_cons, List.cons_append]

theorem terminated_inj (hending : ending.toList = [c]) (hs : ∀ s ∈ ss, c ∉ s.toList)
    (ht : ∀ t ∈ ts, c ∉ t.toList) (h : terminated ending ss = terminated ending ts) : ss = ts := by
  have hpieces := pieces_terminated hending hs
  rw [h, pieces_terminated hending ht] at hpieces
  exact (List.map_injective_iff.mpr (fun _ _ => String.toList_injective)
    (List.append_cancel_right hpieces)).symm

end terminated

section joined

variable {α : Type} {text : α → String} {as bs : List α} {r s : List Char}

/-- What can stand after an argument or a parameter. -/
def EndsArgument (c : Char) : Prop := c = ',' ∨ c = ')'

/-- The texts of two things tell them apart, whatever stands after the argument that each is. -/
def ToldApart (text : α → String) (a b : α) : Prop :=
  ∀ c d r s, EndsArgument c → EndsArgument d →
    (text a).toList ++ c :: r = (text b).toList ++ d :: s → a = b ∧ c = d ∧ r = s

/-- No argument can be missed, because none begins with the parenthesis that closes the list. -/
def Begins (s : String) : Prop := ∃ c cs, s.toList = c :: cs ∧ c ≠ ')'

theorem toList_joined_cons (s t : String) (ts : List String) :
    (joined "," (s :: t :: ts)).toList = s.toList ++ ',' :: (joined "," (t :: ts)).toList := by
  simp [joined, String.toList_append]

theorem joined_ne (hb : ∀ b ∈ bs, Begins (text b)) (hne : bs ≠ []) :
    (joined "," (bs.map text)).toList ++ ')' :: s ≠ ')' :: r := by
  obtain ⟨b, bs, rfl⟩ := List.exists_cons_of_ne_nil hne
  obtain ⟨c, cs, hc, hhead⟩ := hb b List.mem_cons_self
  intro h
  cases bs with
  | nil =>
    rw [List.map_singleton, joined, hc] at h
    exact hhead (List.cons.inj h).1
  | cons b' bs =>
    rw [List.map_cons, List.map_cons, toList_joined_cons, hc] at h
    exact hhead (List.cons.inj h).1

theorem joined_inj (h : ∀ a ∈ as, ∀ b ∈ bs, ToldApart text a b)
    (ha : ∀ a ∈ as, Begins (text a)) (hb : ∀ b ∈ bs, Begins (text b))
    (heq : (joined "," (as.map text)).toList ++ ')' :: r =
      (joined "," (bs.map text)).toList ++ ')' :: s) : as = bs ∧ r = s := by
  have hcomma : EndsArgument ',' := .inl rfl
  have hclose : EndsArgument ')' := .inr rfl
  induction as generalizing bs with
  | nil =>
    cases bs with
    | nil => exact ⟨rfl, (List.cons.inj heq).2⟩
    | cons b bs => exact absurd heq.symm (joined_ne hb (List.cons_ne_nil b bs))
  | cons a as ih =>
    cases bs with
    | nil => exact absurd heq (joined_ne ha (List.cons_ne_nil a as))
    | cons b bs =>
      have hab := h a List.mem_cons_self b List.mem_cons_self
      simp only [List.map_cons] at heq
      cases as with
      | nil =>
        cases bs with
        | nil =>
          obtain ⟨rfl, -, rfl⟩ := hab _ _ _ _ hclose hclose heq
          exact ⟨rfl, rfl⟩
        | cons b' bs =>
          rw [List.map_cons, toList_joined_cons, List.append_assoc] at heq
          obtain ⟨-, hmark, -⟩ := hab _ _ _ _ hclose hcomma heq
          cases hmark
      | cons a' as =>
        rw [List.map_cons, toList_joined_cons, List.append_assoc] at heq
        cases bs with
        | nil =>
          obtain ⟨-, hmark, -⟩ := hab _ _ _ _ hcomma hclose heq
          cases hmark
        | cons b' bs =>
          rw [List.map_cons, toList_joined_cons, List.append_assoc] at heq
          obtain ⟨rfl, -, hrest⟩ := hab _ _ _ _ hcomma hcomma heq
          obtain ⟨hlists, rfl⟩ := ih (fun a ha b hb =>
            h a (List.mem_cons_of_mem _ ha) b (List.mem_cons_of_mem _ hb))
            (List.forall_mem_cons.mp ha).2 (List.forall_mem_cons.mp hb).2 hrest
          rw [hlists]
          exact ⟨rfl, rfl⟩

end joined

end SyncCircuit
