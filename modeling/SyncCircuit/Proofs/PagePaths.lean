import SyncCircuit.Proofs.Paths
import SyncCircuit.Proofs.Stages

/-!
The pages of several descriptions in one directory. The page of `F.hw` is named after `F`, but
without what stands behind the last dot of `F`; so two pages are at one place exactly if no more
than that tells the descriptions apart, and then the later run replaces the page of the earlier.
-/

namespace SyncCircuit

namespace CommandLine

open SyncCircuit.Path (Opens IsName stem)

section places

variable {o o' : Options} {file : Path} {F G : String}

/-- A file `F.hw`. Left out are `.`, `..` and the names `..x`, which lead out of a directory when an
extension is to be replaced. -/
structure Titled (file : Path) (F : String) : Prop where
  fileName : file.fileName? = some (F ++ ".hw")
  ne_empty : F ≠ ""
  stem_ne : stem F ≠ "."

def pageName (F : String) : String := stem F ++ "." ++ "html"

theorem Titled.fileStem (h : Titled file F) : file.fileStem = F := by
  have hstem : stem (F ++ "." ++ "hw") = F := Path.stem_extended h.ne_empty (by decide)
  have hname : F ++ "." ++ "hw" = F ++ ".hw" := String.append_assoc
  rw [Path.fileStem, h.fileName, Option.map_some, Option.getD_some, ← hname, hstem]

theorem Titled.isName (h : Titled file F) : IsName F := by
  have hslash := (Path.isName_of_fileName? h.fileName).slash
  rw [String.toList_append, List.mem_append, not_or] at hslash
  refine ⟨hslash.1, Path.component?_eq_some_name.mpr ⟨h.ne_empty, ?_, ?_⟩⟩
  · rintro rfl
    exact h.stem_ne (by decide)
  · rintro rfl
    exact h.stem_ne (by decide)

theorem isName_pageName (h : IsName F) : IsName (pageName F) := by
  obtain ⟨rest, hrest⟩ := Path.exists_stem_append F
  have hslash := h.slash
  rw [hrest, List.mem_append, not_or] at hslash
  have hlength : 5 ≤ (pageName F).length := by
    have hdot : ("." : String).length = 1 := rfl
    have hhtml : ("html" : String).length = 4 := rfl
    simp only [pageName, String.length_append, hdot, hhtml]
    omega
  refine ⟨?_, Path.component?_eq_some_name.mpr ⟨?_, ?_, ?_⟩⟩
  · simp [pageName, String.toList_append, hslash.1]
  all_goals
    intro heq
    rw [heq] at hlength
    exact absurd hlength (by decide)

theorem pageName_inj : pageName F = pageName G ↔ stem F = stem G := by
  unfold pageName
  rw [String.append_assoc, String.append_assoc]
  exact String.append_left_inj _

/-- In a directory the place of a page depends on nothing but the name of the page. -/
theorem exists_pagePath (directory : Path) : ∃ base, Opens base ∧ ∀ o F, o.directory = directory →
    Titled o.file F → pagePath o = base ++ pageName F := by
  obtain ⟨base, hbase, hjoin⟩ := Path.exists_opens directory
  refine ⟨base, hbase, fun o F hdirectory h => ?_⟩
  rw [pagePath, h.fileStem, hdirectory, hjoin F h.isName.slash,
    Path.withExtension_within hbase h.isName h.stem_ne]
  rfl

theorem pagePath_eq (h : Titled o.file F) (h' : Titled o'.file G)
    (hdirectory : o'.directory = o.directory) (hstem : stem F = stem G) :
    pagePath o = pagePath o' := by
  obtain ⟨base, -, hpath⟩ := exists_pagePath o.directory
  rw [hpath o F rfl h, hpath o' G hdirectory h', pageName_inj.mpr hstem]

theorem Titled.getLast?_pagePath {d : Disk} {l : Location} (h : Titled o.file F)
    (hl : d.locate (pagePath o) = .ok l) : l.getLast? = some (pageName F) := by
  obtain ⟨base, hbase, hpath⟩ := exists_pagePath o.directory
  have hname := hbase.fileName? (isName_pageName h.isName)
  rw [← hpath o F rfl h] at hname
  exact Disk.getLast?_of_locate hl hname

end places

section runs

variable {o o' : Options} {file : Path} {F G page content : String} {p q : Program} {d d' : Disk}
  {arguments arguments' : List String}

theorem Publishes.read_of_ne (h : Publishes o page d d') (hread : d.read file = .ok content)
    (hne : d'.locate file ≠ d'.locate (pagePath o)) : d'.read file = .ok content := by
  obtain ⟨made, hmade, hwrite⟩ := h
  refine Disk.read_write_of_ne hwrite (hmade.growing.1.read hread) fun heq => hne ?_
  obtain ⟨l, hl, -⟩ := Disk.write_eq_ok.mp hwrite
  have hkeeps := Disk.keeps_write hwrite
  rw [hkeeps.locate hl, hkeeps.locate (heq.trans hl)]

theorem Publishes.admits (h : Publishes o page d d') (h' : Admits o' d)
    (hdirectory : o'.directory = o.directory) : Admits o' d' := by
  obtain ⟨made, hmade, hwrite⟩ := h
  obtain ⟨made', hmade', hwrite'⟩ := h'
  rw [hdirectory] at hmade'
  obtain rfl := hmade.unique hmade'
  have hkeeps := Disk.keeps_write hwrite
  have hpresent : Session.Present o'.directory (.ok ()) d' := by
    intro hok
    rw [hdirectory]
    exact (hmade.growing.2 hok).imp_right hkeeps.isDirectory
  -- The directory is there by now, so the second run writes on the disk as it is.
  refine ⟨d', Disk.makes_of_present hpresent, fun page' => ?_⟩
  obtain ⟨e, he⟩ := hwrite' page'
  obtain ⟨l, hl, hdir, -⟩ := Disk.write_eq_ok.mp he
  obtain ⟨m, -, hdir', rfl⟩ := Disk.write_eq_ok.mp hwrite
  refine ⟨_, Disk.write_eq_ok.mpr ⟨l, hkeeps.locate hl, ?_, rfl⟩⟩
  rw [Disk.entry?_put (Disk.ne_root hdir')]
  split
  · nofun
  · exact hdir

/-- The arguments ask for the page of the description in a file `F.hw`, and it can be made. -/
structure Renders (arguments : List String) (o : Options) (F : String) (p : Program) (d : Disk) :
    Prop where
  accepted : Options.ofArguments arguments = .ok o
  titled : Titled o.file F
  page : o.page = true
  source : ∃ text, d.read o.file = .ok text ∧ Program.parse text = .ok p
  admits : Admits o d

theorem Renders.publishes (h : Renders arguments o F p d) (level : Option String) :
    Publishes o p.page d (d.after level arguments) := by
  obtain ⟨text, hread, hparse⟩ := h.source
  exact (leaves_after h.accepted hread fun _ => h.admits).publishes hparse h.page

theorem Renders.after (h' : Renders arguments' o' G q d) (h : Publishes o page d d')
    (hF : Titled o.file F) (hdirectory : o'.directory = o.directory) :
    Renders arguments' o' G q d' := by
  obtain ⟨text, hread, hparse⟩ := h'.source
  refine ⟨h'.accepted, h'.titled, h'.page, ⟨text, h.read_of_ne hread ?_, hparse⟩,
    h.admits h'.admits hdirectory⟩
  intro heq
  obtain ⟨l, hl, -⟩ := Disk.read_eq_ok.mp h.holds.1
  have hpage := hF.getLast?_pagePath hl
  have hsource := Disk.getLast?_of_locate (heq.trans hl) h'.titled.fileName
  -- The name of a page ends in another letter than that of a description.
  have hname : pageName F = G ++ ".hw" := Option.some.inj (hpage.symm.trans hsource)
  have hlast := congrArg (·.toList.getLast?) hname
  simp [pageName, String.toList_append] at hlast

/-- Two descriptions, one run after the other, with pages in the same directory. Both pages are
there at the end if the names without their last extension are different; otherwise the first is
lost. -/
theorem pages_after_runs (h : Renders arguments o F p d) (h' : Renders arguments' o' G q d)
    (hdirectory : o'.directory = o.directory) (level level' : Option String)
    (hd' : (d.after level arguments).after level' arguments' = d') :
    d'.read (pagePath o') = .ok q.page ∧
      d'.read (pagePath o) = .ok (if stem F = stem G then q.page else p.page) ∧
      (d'.locate (pagePath o) = d'.locate (pagePath o') ↔ stem F = stem G) := by
  have hfirst := h.publishes level
  have hsecond := (h'.after hfirst h.titled hdirectory).publishes level'
  rw [hd'] at hsecond
  by_cases heq : stem F = stem G
  · have hsame := pagePath_eq h.titled h'.titled hdirectory heq
    rw [if_pos heq, hsame]
    exact ⟨hsecond.holds.1, hsecond.holds.1, iff_of_true rfl heq⟩
  · have hne : d'.locate (pagePath o) ≠ d'.locate (pagePath o') := by
      intro hlocate
      obtain ⟨l, hl, -⟩ := Disk.read_eq_ok.mp hsecond.holds.1
      have hlast := h.titled.getLast?_pagePath (hlocate.trans hl)
      have hlast' := h'.titled.getLast?_pagePath hl
      exact heq (pageName_inj.mp (Option.some.inj (hlast.symm.trans hlast')))
    rw [if_neg heq]
    exact ⟨hsecond.holds.1, hsecond.read_of_ne hfirst.holds.1 hne, iff_of_false hne heq⟩

end runs

section shelf

def wire (name : String) : String :=
  ".hardware " ++ name ++ " .inputs A .outputs B .update B = A .simulate A = 01"

def wired (name : String) : Program where
  name := name
  inputs := ["A"]
  outputs := ["B"]
  latches := []
  definitions := []
  updates := [⟨"B", .signal "A"⟩]
  stimuli := [.ofValues "A" [false, true]]

def shelf : Disk :=
  [("a.b", "first"), ("a.c", "second"), ("d", "third")].foldl
    (fun d (F, name) => d.put [F ++ ".hw"] (.text (wire name)))
    ((Disk.empty []).put ["pages"] .directory)

def request (F : String) : List String := ["--html-dir=pages", F ++ ".hw"]

def requested (F : String) : Options := ⟨F ++ ".hw", "pages", true, false, false⟩

theorem renders_requested {F name : String} {l : Location}
    (ha : Options.ofArguments (request F) = .ok (requested F)) (hF : Titled (F ++ ".hw") F)
    (hr : shelf.read (F ++ ".hw") = .ok (wire name))
    (hp : Program.parse (wire name) = .ok (wired name))
    (hl : shelf.locate (pagePath (requested F)) = .ok l) (hne : shelf.entry? l ≠ some .directory) :
    Renders (request F) (requested F) F (wired name) shelf where
  accepted := ha
  titled := hF
  page := rfl
  source := ⟨wire name, hr, hp⟩
  admits := admits_of_isDirectory (show shelf.isDirectory "pages" = true from rfl) hl hne

theorem renders_first : Renders (request "a.b") (requested "a.b") "a.b" (wired "first") shelf :=
  renders_requested rfl ⟨rfl, by decide, by decide⟩ (by rfl) rfl rfl nofun

theorem pages_after_runs_apart : ∃ d',
    (shelf.after none (request "a.b")).after none (request "d") = d' ∧
      d'.read "pages/a.html" = .ok (wired "first").page ∧
      d'.read "pages/d.html" = .ok (wired "third").page := by
  obtain ⟨d', hd'⟩ : ∃ d', (shelf.after none (request "a.b")).after none (request "d") = d' :=
    ⟨_, rfl⟩
  have h' : Renders _ _ "d" (wired "third") shelf :=
    renders_requested rfl ⟨rfl, by decide, by decide⟩ (by rfl) rfl rfl nofun
  obtain ⟨hlater, hearlier, -⟩ := pages_after_runs renders_first h' rfl none none hd'
  exact ⟨d', hd', hearlier, hlater⟩

/-- Different names are not enough: the page of `a.b.hw` is lost to that of `a.c.hw`. -/
theorem not_pages_apart : ¬∀ (F G : String) (p q : Program) (o o' : Options)
    (arguments arguments' : List String) (d : Disk), F ≠ G → Renders arguments o F p d →
      Renders arguments' o' G q d → o'.directory = o.directory →
      ((d.after none arguments).after none arguments').read (pagePath o) = .ok p.page := by
  intro hall
  have hpages : (wired "second").page ≠ (wired "first").page := by decide +kernel
  have h' : Renders _ _ "a.c" (wired "second") shelf :=
    renders_requested rfl ⟨rfl, by decide, by decide⟩ (by rfl) rfl rfl nofun
  have hfirst := hall _ _ _ _ _ _ _ _ _ (by decide) renders_first h' rfl
  have hsecond := (h'.after (renders_first.publishes none) renders_first.titled rfl).publishes none
  generalize (shelf.after none (request "a.b")).after none (request "a.c") = d' at hfirst hsecond
  have hpath : pagePath (requested "a.b") = "pages/a.html" := rfl
  have hpath' : pagePath (requested "a.c") = "pages/a.html" := rfl
  have hread := hsecond.holds.1
  rw [hpath'] at hread
  rw [hpath] at hfirst
  exact hpages (Except.ok.inj (hread.symm.trans hfirst))

end shelf

end CommandLine

end SyncCircuit
