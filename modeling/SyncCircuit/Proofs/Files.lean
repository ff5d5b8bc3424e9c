import Mathlib.Data.List.TakeWhile
import SyncCircuit.CommandLine.Disk

/-!
What the operations on a disk leave as it was. A directory stays a directory, so that a path that
leads somewhere leads there also afterwards; making directories touches nothing that is there, and
writing a text touches one place.
-/

namespace SyncCircuit

theorem exists_of_bind_eq_ok {ε α β : Type} {x : Except ε α} {f : α → Except ε β} {b : β}
    (h : x >>= f = .ok b) : ∃ a, x = .ok a ∧ f a = .ok b := by
  cases x with
  | error e => cases h
  | ok a => exact ⟨a, rfl, h⟩

namespace CommandLine

namespace Disk

variable {d d' d'' : Disk} {p q : Path} {l l' : Location} {e : Entry} {x content text : String}

theorem entry?_root (d : Disk) : d.entry? [] = some .directory := if_pos rfl

theorem entry?_put (hl : l ≠ []) (d : Disk) (e : Entry) (l' : Location) :
    entry? (d.put l e) l' = if l = l' then some e else d.entry? l' := by
  by_cases h : l' = []
  · subst h
    rw [entry?_root, entry?_root, if_neg hl]
  · simp only [put, entry?, if_neg h, Std.ExtTreeMap.getElem?_insert,
      Std.LawfulEqCmp.compare_eq_iff_eq]

theorem ne_root (h : d.entry? l ≠ some .directory) : l ≠ [] := by
  rintro rfl
  exact h d.entry?_root

structure Keeps (d d' : Disk) : Prop where
  working : d'.working = d.working
  directories : ∀ l, d.entry? l = some .directory → d'.entry? l = some .directory

theorem entry?_of_enter (h : d.enter l x = .ok l') : d.entry? l = some .directory := by
  unfold enter at h
  split at h
  · cases h
  · assumption
  · cases h

theorem Keeps.enter (h : Keeps d d') (he : d.enter l x = .ok l') : d'.enter l x = .ok l' := by
  have hl := entry?_of_enter he
  rw [← he]
  simp only [Disk.enter, hl, h.directories l hl]

theorem Keeps.foldlM (h : Keeps d d') {xs : List String} (hf : xs.foldlM d.enter l = .ok l') :
    xs.foldlM d'.enter l = .ok l' := by
  induction xs generalizing l with
  | nil => exact hf
  | cons x xs ih =>
    rw [List.foldlM_cons] at hf ⊢
    obtain ⟨m, hm, hxs⟩ := exists_of_bind_eq_ok hf
    rw [h.enter hm]
    exact ih hxs

theorem follow_eq_ok {xs : List String} : d.follow p xs = .ok l ↔
    p ≠ "" ∧ p.utf8ByteSize ≤ pathLimit ∧
      xs.foldlM d.enter (if p.isAbsolute then [] else d.working) = .ok l := by
  unfold follow
  split
  · next hp => simp [hp]
  · next hp =>
    split
    · next hlong => simp [Nat.not_le.mpr hlong]
    · next hshort => simp [hp, Nat.not_lt.mp hshort]

theorem Keeps.follow (h : Keeps d d') {xs : List String} (hf : d.follow p xs = .ok l) :
    d'.follow p xs = .ok l := by
  obtain ⟨hp, hsize, hl⟩ := follow_eq_ok.mp hf
  exact follow_eq_ok.mpr ⟨hp, hsize, h.working ▸ h.foldlM hl⟩

theorem Keeps.locate (h : Keeps d d') (hl : d.locate p = .ok l) : d'.locate p = .ok l :=
  h.follow hl

theorem isDirectory_iff :
    d.isDirectory p = true ↔ ∃ l, d.locate p = .ok l ∧ d.entry? l = some .directory := by
  unfold isDirectory
  split
  · next l hl => simp [hl]
  · next fault hl => simp [hl]

theorem Keeps.isDirectory (h : Keeps d d') (hp : d.isDirectory p = true) :
    d'.isDirectory p = true := by
  obtain ⟨l, hl, hd⟩ := isDirectory_iff.mp hp
  exact isDirectory_iff.mpr ⟨l, h.locate hl, h.directories l hd⟩

/-- Everything is as it was, except that there are more directories. -/
structure Grown (d d' : Disk) : Prop where
  working : d'.working = d.working
  entries : ∀ l, d'.entry? l = d.entry? l ∨ d.entry? l = none ∧ d'.entry? l = some .directory

theorem Grown.refl (d : Disk) : Grown d d := ⟨rfl, fun _ => .inl rfl⟩

theorem Grown.entry? (h : Grown d d') (hl : d.entry? l = some e) : d'.entry? l = some e := by
  rcases h.entries l with heq | ⟨hnone, -⟩
  · rw [heq, hl]
  · rw [hl] at hnone
    cases hnone

theorem Grown.trans (h : Grown d d') (h' : Grown d' d'') : Grown d d'' := by
  refine ⟨h'.working.trans h.working, fun l => ?_⟩
  rcases h.entries l with heq | ⟨hnone, hdir⟩
  · rw [← heq]
    exact h'.entries l
  · exact .inr ⟨hnone, h'.entry? hdir⟩

theorem Grown.keeps (h : Grown d d') : Keeps d d' := ⟨h.working, fun _ => h.entry?⟩

theorem grown_put (h : d.entry? l = none) : Grown d (d.put l .directory) := by
  have hne : d.entry? l ≠ some .directory := by simp [h]
  refine ⟨rfl, fun l' => ?_⟩
  rw [entry?_put (ne_root hne)]
  split
  · next heq => exact .inr ⟨heq ▸ h, rfl⟩
  · exact .inl rfl

theorem makeDirectory_eq_ok (h : d.makeDirectory p = .ok d') : ∃ l,
    d.follow p (p.segments.reverse.dropWhile (· = "")).reverse = .ok l ∧ d.entry? l = none ∧
      d' = d.put l .directory := by
  unfold makeDirectory at h
  split at h
  · cases h
  · next l hl =>
    split at h
    · cases h
    · next hnone => exact ⟨l, hl, by simpa using hnone, (Except.ok.inj h).symm⟩

theorem grown_of_makeDirectory (h : d.makeDirectory p = .ok d') : Grown d d' := by
  obtain ⟨l, -, hnone, rfl⟩ := makeDirectory_eq_ok h
  exact grown_put hnone

theorem write_eq_ok : d.write p content = .ok d' ↔
    ∃ l, d.locate p = .ok l ∧ d.entry? l ≠ some .directory ∧ d' = d.put l (.text content) := by
  unfold write
  split
  · next fault hl => simp [hl]
  · next l hl =>
    simp only [hl, Except.ok.injEq, exists_eq_left']
    split
    · next hd => simp [hd]
    · next hd => simp [hd, eq_comm]

theorem read_eq_ok : d.read p = .ok content ↔
    ∃ l, d.locate p = .ok l ∧ d.entry? l = some (.text content) := by
  unfold read
  split
  · next fault hl => simp [hl]
  · next l hl =>
    simp only [hl, Except.ok.injEq, exists_eq_left']
    split <;> simp_all

theorem ne_empty_of_read (h : d.read p = .ok content) : p ≠ "" := by
  obtain ⟨l, hl, -⟩ := read_eq_ok.mp h
  exact (follow_eq_ok.mp hl).1

theorem keeps_put (h : d.entry? l ≠ some .directory) (e : Entry) : Keeps d (d.put l e) := by
  refine ⟨rfl, fun l' hl' => ?_⟩
  rw [entry?_put (ne_root h), if_neg]
  · exact hl'
  · rintro rfl
    exact h hl'

theorem keeps_write (h : d.write p content = .ok d') : Keeps d d' := by
  obtain ⟨l, -, hd, rfl⟩ := write_eq_ok.mp h
  exact keeps_put hd _

theorem read_write (h : d.write p content = .ok d') : d'.read p = .ok content := by
  have hkeeps := keeps_write h
  obtain ⟨l, hl, hd, rfl⟩ := write_eq_ok.mp h
  exact read_eq_ok.mpr ⟨l, hkeeps.locate hl, by rw [entry?_put (ne_root hd), if_pos rfl]⟩

theorem entry?_write (h : d.write p content = .ok d') (hl : d.locate p ≠ .ok l) :
    d'.entry? l = d.entry? l := by
  obtain ⟨m, hm, hd, rfl⟩ := write_eq_ok.mp h
  rw [entry?_put (ne_root hd), if_neg]
  rintro rfl
  exact hl hm

theorem read_write_of_ne (h : d.write p content = .ok d') (hq : d.read q = .ok text)
    (hne : d.locate q ≠ d.locate p) : d'.read q = .ok text := by
  obtain ⟨l, hl, ht⟩ := read_eq_ok.mp hq
  refine read_eq_ok.mpr ⟨l, (keeps_write h).locate hl, ?_⟩
  rw [entry?_write h (hl ▸ hne.symm), ht]

theorem Grown.read (h : Grown d d') (hp : d.read p = .ok content) : d'.read p = .ok content := by
  obtain ⟨l, hl, ht⟩ := read_eq_ok.mp hp
  exact read_eq_ok.mpr ⟨l, h.keeps.locate hl, h.entry? ht⟩

theorem eq_of_enter (hx : x = "" ∨ x = ".") (h : d.enter l x = .ok l') : l = l' := by
  have hl := entry?_of_enter h
  rcases hx with rfl | rfl <;> simp only [enter, hl, Except.ok.injEq] at h <;> exact h

theorem eq_of_foldlM_enter {xs : List String} (hx : ∀ x ∈ xs, x = "" ∨ x = ".")
    (h : xs.foldlM d.enter l = .ok l') : l = l' := by
  induction xs generalizing l with
  | nil => exact Except.ok.inj h
  | cons x xs ih =>
    obtain ⟨hx, hxs⟩ := List.forall_mem_cons.mp hx
    rw [List.foldlM_cons] at h
    obtain ⟨m, hm, htail⟩ := exists_of_bind_eq_ok h
    exact (eq_of_enter hx hm).trans (ih hxs htail)

theorem foldlM_enter_empty {xs : List String} (hx : ∀ x ∈ xs, x = "")
    (hl : d.entry? l = some .directory) : xs.foldlM d.enter l = .ok l := by
  induction xs with
  | nil => rfl
  | cons x xs ih =>
    obtain ⟨rfl, hxs⟩ := List.forall_mem_cons.mp hx
    have he : d.enter l "" = .ok l := by simp only [enter, hl]
    rw [List.foldlM_cons, he]
    exact ih hxs

/-- What `makeDirectory` leaves out of a path are the empty names at its end. -/
theorem exists_segments (p : Path) : ∃ xs, (∀ x ∈ xs, x = "") ∧
    p.segments = (p.segments.reverse.dropWhile (· = "")).reverse ++ xs := by
  refine ⟨(p.segments.reverse.takeWhile (· = "")).reverse, fun x hx => ?_, ?_⟩
  · simpa using List.mem_takeWhile_imp (List.mem_reverse.mp hx)
  · rw [← List.reverse_append, List.takeWhile_append_dropWhile, List.reverse_reverse]

theorem isDirectory_of_makeDirectory (h : d.makeDirectory p = .ok d') :
    d'.isDirectory p = true := by
  have hkeeps := (grown_of_makeDirectory h).keeps
  obtain ⟨l, hl, hnone, rfl⟩ := makeDirectory_eq_ok h
  have hne : d.entry? l ≠ some .directory := by simp [hnone]
  have hdir : entry? (d.put l .directory) l = some .directory := by
    rw [entry?_put (ne_root hne), if_pos rfl]
  obtain ⟨hp, hsize, hf⟩ := follow_eq_ok.mp (hkeeps.follow hl)
  refine isDirectory_iff.mpr ⟨l, follow_eq_ok.mpr ⟨hp, hsize, ?_⟩, hdir⟩
  obtain ⟨xs, hxs, hsegments⟩ := exists_segments p
  rw [hsegments, List.foldlM_append, hf]
  exact foldlM_enter_empty hxs hdir

theorem makeDirectory_of_isDirectory (h : d.isDirectory p = true) :
    d.makeDirectory p = .error .alreadyExists := by
  obtain ⟨l, hl, hdir⟩ := isDirectory_iff.mp h
  obtain ⟨hp, hsize, hf⟩ := follow_eq_ok.mp hl
  obtain ⟨xs, hxs, hsegments⟩ := exists_segments p
  rw [hsegments, List.foldlM_append] at hf
  obtain ⟨m, hm, hxs'⟩ := exists_of_bind_eq_ok hf
  obtain rfl := eq_of_foldlM_enter (fun x hx => .inl (hxs x hx)) hxs'
  have hfollow := follow_eq_ok.mpr ⟨hp, hsize, hm⟩
  simp only [makeDirectory, hfollow, hdir, Option.isSome_some, ↓reduceIte]

end Disk

namespace Session

open Disk (Grown Keeps)

variable {α β : Type} {d d' d'' : Disk} {p : Path} {s s' : Session}

theorem run_bind_of {x : StateM Session α} {a : α} (h : x.run s = (a, s'))
    (f : α → StateM Session β) : (x >>= f).run s = (f a).run s' := by
  rw [StateT.run_bind, h]
  rfl

/-- From the disk `d` the action leads to a result and a disk with `post`. It prints nothing, and to
the disk it only adds directories. -/
def Growing (x : StateM Session α) (d : Disk) (post : α → Disk → Prop) : Prop :=
  ∃ a d', Grown d d' ∧ post a d' ∧
    ∀ printed reported, x.run ⟨d, printed, reported⟩ = (a, ⟨d', printed, reported⟩)

theorem Growing.pure {a : α} {post : α → Disk → Prop} (h : post a d) :
    Growing (Pure.pure a) d post :=
  ⟨a, d, .refl d, h, fun _ _ => rfl⟩

theorem Growing.bind {x : StateM Session α} {f : α → StateM Session β} {between : α → Disk → Prop}
    {post : β → Disk → Prop} (hx : Growing x d between)
    (hf : ∀ a d', between a d' → Growing (f a) d' post) : Growing (x >>= f) d post := by
  obtain ⟨a, d', hgrown, ha, hrun⟩ := hx
  obtain ⟨b, d'', hgrown', hb, hrun'⟩ := hf a d' ha
  refine ⟨b, d'', hgrown.trans hgrown', hb, fun printed reported => ?_⟩
  rw [run_bind_of (hrun printed reported), hrun']

def Present (p : Path) (made : Except DiskFault Unit) (d : Disk) : Prop :=
  made = .ok () → p = "" ∨ d.isDirectory p = true

theorem growing_makeDirectory (p : Path) (d : Disk) :
    Growing (host.makeDirectory p) d (Present p) := by
  cases h : d.makeDirectory p with
  | ok d' =>
    refine ⟨.ok (), d', Disk.grown_of_makeDirectory h,
      fun _ => .inr (Disk.isDirectory_of_makeDirectory h), fun _ _ => ?_⟩
    simp only [host, change, StateT.run, h]
  | error fault =>
    refine ⟨.error fault, d, .refl d, nofun, fun _ _ => ?_⟩
    simp only [host, change, StateT.run, h]

theorem growing_orPresent (p : Path) (fault : DiskFault) (d : Disk) :
    Growing (host.orPresent p fault) d (Present p) := by
  have hask : Growing (host.isDirectory p) d fun there d' => there = d'.isDirectory p :=
    ⟨d.isDirectory p, d, .refl d, rfl, fun _ _ => rfl⟩
  refine hask.bind fun there d' hthere => ?_
  cases there with
  | true => exact .pure fun _ => .inr hthere.symm
  | false => exact .pure nofun

theorem growing_makeAll (ps : List Path) (d : Disk) :
    Growing (host.makeAll ps) d fun made d' => ∀ p ∈ ps.head?, Present p made d' := by
  induction ps generalizing d with
  | nil => exact .pure (by simp)
  | cons p above ih =>
    suffices h : Growing (host.makeAll (p :: above)) d (Present p) by simpa using h
    by_cases hp : p = ""
    · simp only [Host.makeAll, if_pos hp]
      exact .pure fun _ => .inl hp
    · simp only [Host.makeAll, if_neg hp]
      refine (growing_makeDirectory p d).bind fun made d' hmade => ?_
      cases made with
      | ok => exact .pure hmade
      | error fault =>
        cases fault with
        | notFound =>
          -- The directories above come first, and then this one is tried again.
          refine (ih d').bind fun above d'' _ => ?_
          cases above with
          | error fault => exact .pure nofun
          | ok =>
            refine (growing_makeDirectory p d'').bind fun made _ hmade => ?_
            cases made with
            | ok => exact .pure hmade
            | error fault => exact growing_orPresent p fault _
        | _ => exact growing_orPresent p _ d'

end Session

namespace Disk

open Session (host Growing Present)

variable {d d' d'' : Disk} {p : Path}

/-- To make a directory, with those above it, leads from one disk to the other. -/
def Makes (d : Disk) (p : Path) (d' : Disk) : Prop :=
  ∀ printed reported, (host.makeDirectories p).run ⟨d, printed, reported⟩ =
    (.ok (), ⟨d', printed, reported⟩)

theorem growing_makeDirectories (p : Path) (d : Disk) :
    Growing (host.makeDirectories p) d (Present p) := by
  have hall := Session.growing_makeAll p.ancestors d
  simpa [Path.ancestors, Host.makeDirectories] using hall

theorem Makes.growing (h : Makes d p d') : Grown d d' ∧ Present p (.ok ()) d' := by
  obtain ⟨made, e, hgrown, hpresent, hrun⟩ := growing_makeDirectories p d
  obtain ⟨rfl, hsession⟩ := Prod.mk.inj ((h "" "").symm.trans (hrun "" ""))
  obtain rfl : d' = e := congrArg Session.disk hsession
  exact ⟨hgrown, hpresent⟩

theorem Makes.unique (h : Makes d p d') (hother : Makes d p d'') : d' = d'' :=
  congrArg (·.2.disk) ((h "" "").symm.trans (hother "" ""))

theorem makes_of_present (h : Present p (.ok ()) d) : Makes d p d := by
  intro printed reported
  by_cases hp : p = ""
  · simp only [Host.makeDirectories, Path.ancestors, Host.makeAll, if_pos hp]
    rfl
  · have hdir : d.isDirectory p = true := (h rfl).resolve_left hp
    have hmake : (host.makeDirectory p).run ⟨d, printed, reported⟩ =
        (.error .alreadyExists, ⟨d, printed, reported⟩) := by
      simp only [host, Session.change, StateT.run, makeDirectory_of_isDirectory hdir]
    have hask : (host.isDirectory p).run ⟨d, printed, reported⟩ =
        (true, ⟨d, printed, reported⟩) := by
      simp only [host, StateT.run, hdir]
    simp only [Host.makeDirectories, Path.ancestors, Host.makeAll, if_neg hp]
    rw [Session.run_bind_of hmake]
    exact Session.run_bind_of hask _

end Disk

end CommandLine

end SyncCircuit
