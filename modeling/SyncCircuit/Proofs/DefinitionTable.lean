import SyncCircuit.Proofs.Calls

/-!
The table of definitions over any sequence of additions. The list and the places of the names stay
in step: a name has the place of its last definition, and adding a definition moves no other name.
-/

namespace SyncCircuit

namespace Definitions

/-- The last definition of the name `f` is `d`, and it has `i` definitions before it. -/
def LastAt (list : List Definition) (f : Name) (i : ℕ) (d : Definition) : Prop :=
  ∃ before after, list = before ++ d :: after ∧ before.length = i ∧ d.name = f ∧
    ∀ e ∈ after, e.name ≠ f

variable {list : List Definition} {f : Name} {i : ℕ} {d e : Definition}

theorem LastAt.getElem? (h : LastAt list f i d) : list[i]? = some d := by
  obtain ⟨before, after, rfl, rfl, -, -⟩ := h
  simp

theorem lastAt_concat : LastAt (list ++ [e]) f i d ↔
    if e.name = f then i = list.length ∧ d = e else LastAt list f i d := by
  constructor
  · rintro ⟨before, after, hlist, rfl, hd, hafter⟩
    induction after using List.reverseRecOn with
    | nil =>
      obtain ⟨rfl, hde⟩ := List.append_inj' hlist rfl
      obtain rfl : e = d := List.head_eq_of_cons_eq hde
      rw [if_pos hd]
      exact ⟨rfl, rfl⟩
    | append_singleton after a _ =>
      rw [← List.cons_append, ← List.append_assoc] at hlist
      obtain ⟨rfl, hea⟩ := List.append_inj' hlist rfl
      obtain rfl : e = a := List.head_eq_of_cons_eq hea
      rw [if_neg (hafter e (by simp))]
      exact ⟨before, after, rfl, rfl, hd, fun c hc => hafter c (by simp [hc])⟩
  · split
    · next he =>
      rintro ⟨rfl, rfl⟩
      exact ⟨list, [], rfl, rfl, he, by simp⟩
    · next he =>
      rintro ⟨before, after, rfl, rfl, hd, hafter⟩
      refine ⟨before, after ++ [e], by simp, rfl, hd, fun c hc => ?_⟩
      rcases List.mem_append.mp hc with hc | hc
      · exact hafter c hc
      · rwa [List.mem_singleton.mp hc]

theorem position_add (ds : Definitions) (d : Definition) (f : Name) :
    (ds.add d).position[f]? = if d.name = f then some ds.list.length else ds.position[f]? := by
  simp only [add, Std.ExtTreeMap.getElem?_insert, Std.LawfulEqCmp.compare_eq_iff_eq]

theorem list_ofList (list : List Definition) : (ofList list).list = list := by
  induction list using List.reverseRecOn with
  | nil => rfl
  | append_singleton list d ih => rw [ofList_concat, add, ih]

theorem position_ofList : (ofList list).position[f]? = some i ↔ ∃ d, LastAt list f i d := by
  induction list using List.reverseRecOn with
  | nil => simp [ofList, empty, LastAt]
  | append_singleton list e ih =>
    simp only [ofList_concat, position_add, lastAt_concat, list_ofList]
    split
    · simp [eq_comm]
    · exact ih

theorem find?_eq_some_iff : (ofList list).find? f = some d ↔ ∃ i, LastAt list f i d := by
  rw [find?, list_ofList, Option.bind_eq_some_iff]
  constructor
  · rintro ⟨i, hi, hd⟩
    obtain ⟨c, hc⟩ := position_ofList.mp hi
    obtain rfl : c = d := Option.some.inj (hc.getElem?.symm.trans hd)
    exact ⟨i, hc⟩
  · rintro ⟨i, h⟩
    exact ⟨i, position_ofList.mpr ⟨d, h⟩, h.getElem?⟩

theorem find?_eq_none_iff : (ofList list).find? f = none ↔ ∀ d ∈ list, d.name ≠ f := by
  simp [find?_ofList]

/-- Whatever definitions have been added, and in whatever order: they are all listed as they came;
the place kept for a name is one in the list, that of the last definition of this name; a name
stands for its last definition, and for none only if it has none; and one more definition changes
what its own name stands for and nothing else. -/
theorem ofList_exact (list : List Definition) :
    (ofList list).list = list ∧
      (∀ f i, (ofList list).position[f]? = some i →
        i < (ofList list).list.length ∧ ∃ d, LastAt list f i d) ∧
      (∀ f d, (ofList list).find? f = some d ↔ ∃ i, LastAt list f i d) ∧
      (∀ f, (ofList list).find? f = none ↔ ∀ d ∈ list, d.name ≠ f) ∧
      ∀ d, ofList (list ++ [d]) = (ofList list).add d ∧
        ∀ f, ((ofList list).add d).find? f =
          if d.name = f then some d else (ofList list).find? f := by
  refine ⟨list_ofList list, fun f i hi => ?_, fun f d => find?_eq_some_iff,
    fun f => find?_eq_none_iff, fun d => ⟨ofList_concat list d, find?_add (indexed_ofList list) d⟩⟩
  exact ⟨indexed_ofList list f i hi, position_ofList.mp hi⟩

end Definitions

end SyncCircuit
