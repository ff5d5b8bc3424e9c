import Mathlib.Data.List.Induction
import SyncCircuit.Proofs.Files
import SyncCircuit.Proofs.Pieces

/-!
The names in paths: which name a path ends in, where on a disk that is, and what becomes of it when
the extension is replaced.
-/

namespace SyncCircuit

namespace Path

open Text (pieces)

variable {p : Path} {n x : String}

theorem component?_eq_none (h : component? x = none) : x = "" ∨ x = "." := by
  unfold component? at h
  split at h <;> simp_all

theorem component?_eq_name (h : component? x = some (.name n)) : x = n := by
  unfold component? at h
  split at h <;> simp_all

theorem components_eq (p : Path) : ∃ front : List Component,
    (∀ n, .name n ∉ front) ∧ p.components = front ++ p.segments.filterMap component? := by
  unfold components
  split
  · next rest hsegments =>
    rw [hsegments, List.filterMap_cons_none (show component? "" = none from rfl)]
    exact ⟨_, fun n => by split <;> simp, rfl⟩
  · next rest hsegments =>
    rw [hsegments, List.filterMap_cons_none (show component? "." = none from rfl)]
    exact ⟨[.here], fun n => by simp, rfl⟩
  · exact ⟨[], fun n => List.not_mem_nil, rfl⟩

/-- The segments up to the last name, and what follows it and does not count. -/
def EndsIn (n : String) (segments : List String) : Prop :=
  ∃ init trailing, segments = init ++ n :: trailing ∧ (∀ x ∈ trailing, x = "" ∨ x = ".") ∧
    component? n = some (.name n)

theorem endsIn_of_getLast? {xs : List String}
    (h : (xs.filterMap component?).getLast? = some (.name n)) : EndsIn n xs := by
  induction xs using List.reverseRecOn with
  | nil => cases h
  | append_singleton xs x ih =>
    rw [List.filterMap_append] at h
    cases hx : component? x with
    | none =>
      rw [List.filterMap_cons_none hx, List.filterMap_nil, List.append_nil] at h
      obtain ⟨init, trailing, rfl, htrailing, hn⟩ := ih h
      refine ⟨init, trailing ++ [x], by simp, fun y hy => ?_, hn⟩
      rcases List.mem_append.mp hy with hy | hy
      · exact htrailing y hy
      · exact List.mem_singleton.mp hy ▸ component?_eq_none hx
    | some c =>
      rw [List.filterMap_cons_some hx, List.filterMap_nil, List.getLast?_concat] at h
      obtain rfl := Option.some.inj h
      obtain rfl := component?_eq_name hx
      exact ⟨xs, [], rfl, by simp, hx⟩

theorem getLast?_of_endsIn {xs : List String} (h : EndsIn n xs) :
    (xs.filterMap component?).getLast? = some (.name n) := by
  obtain ⟨init, trailing, rfl, htrailing, hn⟩ := h
  have hnone : trailing.filterMap component? = [] := by
    rw [List.filterMap_eq_nil_iff]
    rintro x hx
    rcases htrailing x hx with rfl | rfl <;> rfl
  rw [List.filterMap_append, List.filterMap_cons_some hn, hnone, List.getLast?_concat]

/-- The file name is the last name among the segments, if `..` does not come after it. -/
theorem fileName?_eq_some : p.fileName? = some n ↔ EndsIn n p.segments := by
  obtain ⟨front, hfront, hcomponents⟩ := components_eq p
  have hlast : p.fileName? = some n ↔ p.components.getLast? = some (.name n) := by
    unfold fileName?
    split
    · next x hx => simp [hx]
    · next hx => simp_all
  rw [hlast, hcomponents, List.getLast?_append]
  constructor
  · intro h
    cases hnames : (p.segments.filterMap component?).getLast? with
    | none =>
      rw [hnames, Option.none_or] at h
      exact absurd (List.mem_of_getLast? h) (hfront n)
    | some c =>
      rw [hnames, Option.some_or] at h
      exact endsIn_of_getLast? (hnames.trans h)
  · intro h
    rw [getLast?_of_endsIn h, Option.some_or]

structure IsName (x : String) : Prop where
  slash : '/' ∉ x.toList
  name : component? x = some (.name x)

theorem component?_eq_some_name :
    component? x = some (.name x) ↔ x ≠ "" ∧ x ≠ "." ∧ x ≠ ".." := by
  unfold component?
  split <;> simp_all

theorem isName_of_fileName? (h : p.fileName? = some n) : IsName n := by
  obtain ⟨init, trailing, hsegments, -, hn⟩ := fileName?_eq_some.mp h
  have hmem : n ∈ p.segments := by rw [hsegments]; simp
  obtain ⟨cs, hcs, rfl⟩ := List.mem_map.mp hmem
  exact ⟨by rw [String.toList_ofList]; exact notMem_of_mem_pieces hcs, hn⟩

section stem

theorem stem_extended {extension : String} (hx : x ≠ "") (he : '.' ∉ extension.toList) :
    stem (x ++ "." ++ extension) = x := by
  have hchars : (x ++ "." ++ extension).toList.reverse =
      extension.toList.reverse ++ '.' :: x.toList.reverse := by
    simp [String.toList_append]
  have hfront : ((x ++ "." ++ extension).toList.reverse.dropWhile (· ≠ '.')).drop 1 =
      x.toList.reverse := by
    rw [hchars, List.dropWhile_append_of_pos, List.dropWhile_cons_of_neg (by simp)]
    · rfl
    · intro c hc
      have hne : c ≠ '.' := fun heq => he (heq ▸ List.mem_reverse.mp hc)
      simpa using hne
  have hne : x.toList.reverse ≠ [] := by simpa using hx
  rw [stem, hfront, if_neg hne, List.reverse_reverse, String.ofList_toList]

theorem exists_stem_append (x : String) : ∃ rest, x.toList = (stem x).toList ++ rest := by
  unfold stem
  dsimp only
  split
  · exact ⟨[], (List.append_nil _).symm⟩
  · have hsuffix := (List.drop_suffix 1 _).trans
      (List.dropWhile_suffix (· ≠ '.') (l := x.toList.reverse))
    obtain ⟨rest, hrest⟩ := List.reverse_prefix.mpr hsuffix
    exact ⟨rest, by rw [String.toList_ofList, hrest, List.reverse_reverse]⟩

end stem

section within

variable {base e : String}

/-- What a path begins with that leads into a directory. -/
def Opens (base : String) : Prop := base = "" ∨ ∃ directory, base = directory ++ "/"

theorem Opens.segments (h : Opens base) :
    ∃ init, ∀ x, '/' ∉ x.toList → Path.segments (base ++ x) = init ++ [x] := by
  have hpiece (x : String) (hx : '/' ∉ x.toList) :
      (pieces '/' x.toList).map String.ofList = [x] := by
    rw [pieces_of_notMem hx, List.map_singleton, String.ofList_toList]
  rcases h with rfl | ⟨directory, rfl⟩
  · exact ⟨[], fun x hx => by rw [String.empty_append, Path.segments, hpiece x hx]; rfl⟩
  · refine ⟨Path.segments directory, fun x hx => ?_⟩
    have hchars : (directory ++ "/" ++ x).toList = directory.toList ++ '/' :: x.toList := by
      simp [String.toList_append]
    rw [Path.segments, hchars, pieces_append_cons, List.map_append, hpiece x hx]
    rfl

theorem Opens.fileName? (h : Opens base) (hx : IsName x) : Path.fileName? (base ++ x) = some x := by
  obtain ⟨init, hinit⟩ := h.segments
  exact fileName?_eq_some.mpr ⟨init, [], hinit x hx.slash, by simp, hx.name⟩

theorem exists_opens (directory : Path) :
    ∃ base, Opens base ∧ ∀ x, '/' ∉ x.toList → join directory x = base ++ x := by
  have hrelative (x : String) (hx : '/' ∉ x.toList) : isAbsolute x = false := by
    have hhead : x.toList.head? ≠ some '/' := fun h => hx (List.mem_of_head? h)
    simpa [isAbsolute] using hhead
  unfold join
  by_cases hempty : directory = ""
  · refine ⟨"", .inl rfl, fun x hx => ?_⟩
    rw [hempty, if_pos (by simp), String.empty_append]
  · by_cases hlast : directory.toList.getLast? = some '/'
    · refine ⟨directory, .inr ⟨String.ofList directory.toList.dropLast, ?_⟩, fun x hx => ?_⟩
      · apply String.toList_injective
        rw [String.toList_append, String.toList_ofList]
        exact (List.dropLast_append_getLast? _ hlast).symm
      · rw [if_neg (by simp [hrelative x hx, hempty]), if_pos hlast]
    · refine ⟨directory ++ "/", .inr ⟨directory, rfl⟩, fun x hx => ?_⟩
      rw [if_neg (by simp [hrelative x hx, hempty]), if_neg hlast]

theorem dropTrailing_name (hx : IsName x) (rest : List Char) :
    dropTrailing (x.toList.reverse ++ rest) = x.toList.reverse ++ rest := by
  obtain ⟨hempty, hhere, -⟩ := component?_eq_some_name.mp hx.name
  have hslash : '/' ∉ x.toList.reverse := mt List.mem_reverse.mp hx.slash
  cases hchars : x.toList.reverse with
  | nil => exact absurd (by simpa using hchars) hempty
  | cons c cs =>
    rw [hchars] at hslash
    obtain ⟨hc, hcs⟩ := List.ne_and_not_mem_of_not_mem_cons hslash
    refine dropTrailing.eq_3 _ ?_ ?_
    · rintro rest' heq
      exact hc (List.cons.inj heq).1.symm
    · rintro rest' heq
      obtain ⟨rfl, htail⟩ := List.cons.inj heq
      cases cs with
      | nil => exact hhere (String.toList_injective (List.reverse_eq_iff.mp hchars))
      | cons c' cs =>
        obtain ⟨rfl, -⟩ := List.cons.inj htail
        exact hcs List.mem_cons_self

theorem withExtension_within (hb : Opens base) (hx : IsName x) (hs : stem x ≠ ".") :
    withExtension (base ++ x) e = base ++ (stem x ++ "." ++ e) := by
  obtain ⟨rest, hrest⟩ := exists_stem_append x
  have hwritten : (base ++ x).toList.reverse = x.toList.reverse ++ base.toList.reverse := by
    simp [String.toList_append]
  have hlength : x.length - (stem x).length = rest.reverse.length := by
    rw [← String.length_toList, hrest, List.length_append, String.length_toList,
      Nat.add_sub_cancel_left, List.length_reverse]
  have hdrop : (x.toList.reverse ++ base.toList.reverse).drop (x.length - (stem x).length) =
      (stem x).toList.reverse ++ base.toList.reverse := by
    rw [hlength, hrest, List.reverse_append, List.append_assoc, List.drop_left]
  have hleads : (stem x == ".") = false := by simpa using hs
  simp only [withExtension, hb.fileName? hx, hwritten, dropTrailing_name hx, hdrop, hleads,
    Bool.false_and, Bool.false_eq_true, if_false]
  apply String.toList_injective
  simp [String.toList_append]

end within

end Path

namespace CommandLine.Disk

variable {d : Disk} {p : Path} {l l' : Location} {n : String}

theorem eq_append_of_enter (hn : Path.component? n = some (.name n)) (h : d.enter l n = .ok l') :
    l' = l ++ [n] := by
  obtain ⟨hempty, hhere, hup⟩ := Path.component?_eq_some_name.mp hn
  simp only [enter, entry?_of_enter h] at h
  split at h
  · cases h
  · exact (Except.ok.inj h).symm

theorem getLast?_of_locate (h : d.locate p = .ok l) (hp : p.fileName? = some n) :
    l.getLast? = some n := by
  obtain ⟨init, trailing, hsegments, htrailing, hn⟩ := Path.fileName?_eq_some.mp hp
  obtain ⟨-, -, hf⟩ := follow_eq_ok.mp h
  rw [hsegments, List.foldlM_append] at hf
  obtain ⟨m, -, hf⟩ := exists_of_bind_eq_ok hf
  rw [List.foldlM_cons] at hf
  obtain ⟨m', hm, hf⟩ := exists_of_bind_eq_ok hf
  rw [← eq_of_foldlM_enter htrailing hf, eq_append_of_enter hn hm, List.getLast?_concat]

end CommandLine.Disk

end SyncCircuit
