import SyncCircuit.CommandLine.Run
import SyncCircuit.Proofs.Files
import SyncCircuit.Proofs.Parsing
import SyncCircuit.Proofs.Pieces

/-!
A run of the program beside the stages of the library that it puts in a row: reading, building and
simulating. The first stage that fails decides the exit code and what is said about it. The page is
written between reading and building, and the traces are printed at the end.
-/

namespace SyncCircuit

theorem Fault.message_parse (span : Span) (message : String) :
    (parse span message).message = span.text ++ ": " ++ message := rfl

theorem Span.text_ofFile (file text : String) (start stop : ℕ) :
    (Span.mk (.ofFile file text) start stop).text =
      file ++ ":" ++ (Span.mk (.ofString text) start stop).text := by
  unfold Span.text
  rfl

theorem Refusal.message_ofFile (file text : String) (r : Refusal) :
    (r.fault (.ofFile file text)).message =
      file ++ ":" ++ (r.fault (.ofString text)).message := by
  rw [fault, fault, Fault.message_parse, Fault.message_parse, Span.text_ofFile]
  simp only [String.append_assoc]

/-- In a file the path of the file comes before the place in it. -/
theorem Program.parseFrom_ofFile {text : String} {f : Fault} (file : Path)
    (h : parse text = .error f) : ∃ f', parseFrom (.ofFile file text) text = .error f' ∧
      f'.message = file ++ ":" ++ f.message := by
  rw [parse, parseFrom, mapError_eq_error_iff] at h
  obtain ⟨r, hr, rfl⟩ := h
  exact ⟨r.fault (.ofFile file text), by rw [parseFrom, hr, Except.mapError],
    r.message_ofFile file text⟩

theorem Program.parseFrom_of_parse {text : String} {p : Program} (source : Source)
    (h : parse text = .ok p) : parseFrom source text = .ok p := by
  rw [parse, parseFrom, mapError_eq_ok_iff] at h
  rw [parseFrom, h, Except.mapError]

namespace CommandLine

open Session (host run_bind_of)
open Disk (Makes)

def log (least : Level) (es : List Event) : String :=
  terminated "\n" ((es.filter (·.level.detail ≤ least.detail)).map Event.line)

def opening (o : Options) (p : Program) : List Event :=
  .parsed p.name :: if o.page then [.written (pagePath o)] else []

def simulation (c : Circuit) : List Event := c.events ++ (Simulation.start c).runEvents

def traces (o : Options) (c : Circuit) : String :=
  if o.json then c.jsonReport.text ++ "\n"
  else Trace.lines c.stimuli ++ "\n" ++ Trace.lines c.recorded

def captions (o : Options) : String :=
  if o.json then "" else "|| Simulation input ||\n|| Simulation output ||\n"

def saved (o : Options) : String :=
  if o.page then "\n\t * Saved Generated HTML at: \"" ++ pagePath o ++ "\"\n" else ""

structure Succeeds (text : String) (p : Program) (c c' : Circuit) : Prop where
  reading : Program.parse text = .ok p
  building : Circuit.ofProgram p = .ok c
  simulating : c.simulate = .done c'

/-- A stage of the library is the first that fails on the text: what is told before, and what is
said about the fault. -/
inductive Fails (o : Options) (text : String) : List Event → String → Prop where
  | reading {f : Fault} : Program.parse text = .error f →
      Fails o text [] (o.file ++ ":" ++ f.message)
  | building {p : Program} {f : Fault} : Program.parse text = .ok p →
      Circuit.ofProgram p = .error f → Fails o text (opening o p) f.message
  | simulating {p : Program} {c : Circuit} {f : Fault} : Program.parse text = .ok p →
      Circuit.ofProgram p = .ok c → c.simulate.fault = some f →
      Fails o text (opening o p ++ simulation c) f.message

def Publishes (o : Options) (page : String) (d d' : Disk) : Prop :=
  ∃ made, Makes d o.directory made ∧ made.write (pagePath o) page = .ok d'

/-- The directory for the page can be made, and the page can be written there. -/
def Admits (o : Options) (d : Disk) : Prop :=
  ∃ made, Makes d o.directory made ∧ ∀ page, ∃ d', made.write (pagePath o) page = .ok d'

theorem Admits.publishes {o : Options} {d : Disk} (h : Admits o d) (page : String) :
    ∃ d', Publishes o page d d' := by
  obtain ⟨made, hmade, hwrite⟩ := h
  obtain ⟨d', hd'⟩ := hwrite page
  exact ⟨d', made, hmade, hd'⟩

/-- The disk after a run: with the page, if the description could be read and the page is wanted. -/
def Leaves (o : Options) (text : String) (d d' : Disk) : Prop :=
  match Program.parse text with
  | .error _ => d' = d
  | .ok p => if o.page then Publishes o p.page d d' else d' = d

theorem exists_leaves {o : Options} {d : Disk} (h : o.page = true → Admits o d) (text : String) :
    ∃ d', Leaves o text d d' := by
  unfold Leaves
  split
  · exact ⟨d, rfl⟩
  · split
    · next hpage => exact (h hpage).publishes _
    · exact ⟨d, rfl⟩

section run

variable {least : Level} {o : Options} {text : String} {p : Program} {c c' : Circuit} {f : Fault}
  {file : Path} {d d' : Disk} {printed reported : String}

theorem log_append (least : Level) (es es' : List Event) :
    log least (es ++ es') = log least es ++ log least es' := by
  rw [log, List.filter_append, List.map_append, terminated_append]
  rfl

theorem print_run (s : String) : (host.print s).run ⟨d, printed, reported⟩ =
    ((), ⟨d, printed ++ s, reported⟩) := rfl

theorem report_run (s : String) : (host.report s).run ⟨d, printed, reported⟩ =
    ((), ⟨d, printed, reported ++ s⟩) := rfl

theorem tell_run (least : Level) (es : List Event) :
    (tell host least es).run ⟨d, printed, reported⟩ =
      ((), ⟨d, printed, reported ++ log least es⟩) := by
  induction es generalizing reported with
  | nil =>
    have hnone : log least [] = "" := rfl
    rw [hnone, String.append_empty]
    rfl
  | cons e es ih =>
    simp only [tell]
    by_cases he : e.level.detail ≤ least.detail
    · have hlog : log least (e :: es) = e.line ++ "\n" ++ log least es := by
        simp [log, terminated, he]
      rw [if_pos he, run_bind_of (report_run _), ih, hlog, String.append_assoc]
    · have hlog : log least (e :: es) = log least es := by
        simp [log, he]
      rw [if_neg he, hlog]
      exact ih

theorem read_run (h : d.read file = .ok text) :
    (host.read file).run ⟨d, printed, reported⟩ = (.ok text, ⟨d, printed, reported⟩) := by
  simp only [host, StateT.run, h]

theorem write_run {page : String} (h : d.write file page = .ok d') :
    (host.write file page).run ⟨d, printed, reported⟩ = (.ok (), ⟨d', printed, reported⟩) := by
  simp only [host, Session.change, StateT.run, h]

theorem load_run_ok (hr : d.read file = .ok text) (hp : Program.parse text = .ok p) :
    (load host least file).run ⟨d, printed, reported⟩ =
      (.ok p, ⟨d, printed, reported ++ log least [.parsed p.name]⟩) := by
  rw [load, run_bind_of (read_run hr)]
  simp only [Program.parseFrom_of_parse _ hp]
  rw [run_bind_of (tell_run least _)]
  rfl

theorem load_run_error (hr : d.read file = .ok text) (hp : Program.parse text = .error f) :
    (load host least file).run ⟨d, printed, reported⟩ =
      (.error ⟨file ++ ":" ++ f.message, none⟩, ⟨d, printed, reported⟩) := by
  obtain ⟨f', hf', hmessage⟩ := Program.parseFrom_ofFile file hp
  rw [load, run_bind_of (read_run hr)]
  simp only [hf', Failure.ofFault, hmessage]
  rfl

theorem writePage_run (h : Publishes o p.page d d') :
    (writePage host least o p).run ⟨d, printed, reported⟩ =
      (.ok (), ⟨d', printed, reported ++ log least [.written (pagePath o)]⟩) := by
  obtain ⟨made, hmade, hwrite⟩ := h
  rw [writePage, run_bind_of (hmade printed reported)]
  dsimp only
  rw [run_bind_of (write_run hwrite)]
  dsimp only
  rw [run_bind_of (tell_run least _)]
  rfl

theorem simulate_run_done (hc : Circuit.ofProgram p = .ok c) (hs : c.simulate = .done c') :
    (simulate host least p).run ⟨d, printed, reported⟩ =
      (.ok c', ⟨d, printed, reported ++ log least (simulation c)⟩) := by
  rw [simulate]
  simp only [hc]
  rw [run_bind_of (tell_run least _), run_bind_of (tell_run least _), hs, simulation, log_append,
    String.append_assoc]
  rfl

theorem simulate_run_unbuilt (hc : Circuit.ofProgram p = .error f) :
    (simulate host least p).run ⟨d, printed, reported⟩ =
      (.error ⟨f.message, none⟩, ⟨d, printed, reported⟩) := by
  rw [simulate]
  simp only [hc]
  rfl

theorem simulate_run_fault (hc : Circuit.ofProgram p = .ok c) (hs : c.simulate.fault = some f) :
    (simulate host least p).run ⟨d, printed, reported⟩ =
      (.error ⟨f.message, none⟩, ⟨d, printed, reported ++ log least (simulation c)⟩) := by
  rw [simulate]
  simp only [hc, hs]
  rw [run_bind_of (tell_run least _), run_bind_of (tell_run least _), simulation, log_append,
    String.append_assoc]
  rfl

theorem printTraces_run :
    (printTraces host o c).run ⟨d, printed, reported⟩ =
      ((), ⟨d, printed ++ traces o c, reported ++ captions o⟩) := by
  unfold printTraces traces captions
  split
  · rw [print_run, String.append_empty]
  · rw [run_bind_of (report_run _), run_bind_of (print_run _), run_bind_of (print_run _),
      run_bind_of (report_run _), print_run]
    simp only [String.append_assoc]
    rfl

def finish (o : Options) : Except Failure Circuit → StateM Session (Except Failure Unit)
  | .error f => return .error f
  | .ok c => do
    printTraces host o c
    if o.page then host.print ("\n\t * Saved Generated HTML at: \"" ++ pagePath o ++ "\"\n")
    host.print footer
    return .ok ()

theorem finish_run :
    (finish o (.ok c)).run ⟨d, printed, reported⟩ =
      (.ok (), ⟨d, printed ++ traces o c ++ saved o ++ footer, reported ++ captions o⟩) := by
  rw [finish, run_bind_of printTraces_run, saved]
  split
  · rw [run_bind_of (print_run _), run_bind_of (print_run _)]
    rfl
  · rw [String.append_empty, run_bind_of (print_run _)]
    rfl

theorem stages_run_read (hr : d.read o.file = .ok text) (hp : Program.parse text = .ok p)
    (hd : Leaves o text d d') :
    (stages host least o).run (.start d) =
      (simulate host least p >>= finish o).run ⟨d', header o.file, log least (opening o p)⟩ := by
  rw [stages, Session.start, run_bind_of (print_run _), run_bind_of (load_run_ok hr hp)]
  simp only [Leaves, hp] at hd
  dsimp only
  rw [String.empty_append, String.empty_append]
  split at hd
  · next hpage =>
    have hopening : log least (opening o p) =
        log least [.parsed p.name] ++ log least [.written (pagePath o)] := by
      rw [opening, if_pos hpage, ← log_append]
      rfl
    rw [if_pos hpage, run_bind_of (writePage_run hd), hopening]
    rfl
  · next hpage =>
    have hopening : log least (opening o p) = log least [.parsed p.name] := by
      rw [opening, if_neg hpage]
    rw [if_neg hpage, hd, hopening]
    rfl

theorem stages_run_unread (hr : d.read o.file = .ok text) (hp : Program.parse text = .error f) :
    (stages host least o).run (.start d) =
      (.error ⟨o.file ++ ":" ++ f.message, none⟩, ⟨d, header o.file, ""⟩) := by
  rw [stages, Session.start, run_bind_of (print_run _), run_bind_of (load_run_error hr hp)]
  rfl

theorem stages_run_of_succeeds (hr : d.read o.file = .ok text) (h : Succeeds text p c c')
    (hd : Leaves o text d d') :
    (stages host least o).run (.start d) =
      (.ok (), ⟨d', header o.file ++ traces o c' ++ saved o ++ footer,
        log least (opening o p ++ simulation c) ++ captions o⟩) := by
  rw [stages_run_read hr h.reading hd, run_bind_of (simulate_run_done h.building h.simulating),
    finish_run, log_append]

theorem stages_run_of_fails {es : List Event} {message : String} (hr : d.read o.file = .ok text)
    (h : Fails o text es message) (hd : Leaves o text d d') :
    (stages host least o).run (.start d) =
      (.error ⟨message, none⟩, ⟨d', header o.file, log least es⟩) := by
  cases h with
  | reading hp =>
    simp only [Leaves, hp] at hd
    rw [stages_run_unread hr hp, hd]
    rfl
  | building hp hc =>
    rw [stages_run_read hr hp hd, run_bind_of (simulate_run_unbuilt hc)]
    rfl
  | simulating hp hc hs =>
    rw [stages_run_read hr hp hd, run_bind_of (simulate_run_fault hc hs), log_append]
    rfl

end run

section options

def Options.flags (page json debug : Bool) : List String :=
  (if page then [] else ["--no-html"]) ++ (if json then ["--json"] else []) ++
    if debug then ["--debug"] else []

def Options.arguments (o : Options) : List String :=
  flags o.page o.json o.debug ++ ["--html-dir=" ++ o.directory, "--", o.file]

theorem Options.foldlM_flags : ∀ page json debug : Bool,
    (flags page json debug).foldlM Given.step Given.none =
      .ok { Given.none with noPage := !page, json, debug } := by
  decide

theorem Given.step_directory {g : Given} {p : Path} (ha : g.awaiting = false)
    (he : g.escaped = false) : g.step ("--html-dir=" ++ p) = g.setDirectory p := by
  have hchars : ("--html-dir=" ++ p).toList = "--html-dir=".toList ++ p.toList :=
    String.toList_append
  have hsplit : splitAtEquals ("--html-dir=" ++ p) = ("--html-dir", some p) := by
    simp [splitAtEquals, hchars]
  simp [step, ha, he, isOption, hchars, hsplit, long]

/-- Every choice of options can be asked for, also with a file whose name looks like an option. -/
theorem Options.ofArguments_arguments {o : Options} (hf : o.file ≠ "") (hd : o.directory ≠ "") :
    ofArguments o.arguments = .ok o := by
  obtain ⟨file, directory, page, json, debug⟩ := o
  let g : Given := { Given.none with noPage := !page, json, debug }
  let g' : Given := { g with directory := some directory }
  have hdirectory : g.step ("--html-dir=" ++ directory) = .ok g' := by
    rw [Given.step_directory rfl rfl, Given.setDirectory, if_neg nofun, if_neg hd]
    rfl
  have hescape : g'.step "--" = .ok { g' with escaped := true } := rfl
  have hfile : Given.step { g' with escaped := true } file =
      .ok { g' with file := some file, escaped := true } := by
    rw [Given.step, if_pos rfl, Given.setFile, if_neg nofun, if_neg hf]
  have hgiven : ["--html-dir=" ++ directory, "--", file].foldlM Given.step g =
      .ok { g' with file := some file, escaped := true } := by
    simp only [List.foldlM_cons, List.foldlM_nil, bind, Except.bind, hdirectory, hescape, hfile]
    rfl
  have hfinish : Given.finish { g' with file := some file, escaped := true } =
      .ok ⟨file, directory, !!page, json, debug⟩ := rfl
  rw [ofArguments, arguments, List.foldlM_append, foldlM_flags]
  rw [Bool.not_not] at hfinish
  exact (congrArg (Except.bind · Given.finish) hgiven).trans hfinish

end options

section answers

variable {level : Option String} {arguments : List String} {o : Options} {text : String}
  {p : Program} {c c' : Circuit} {d d' : Disk}

theorem run_of_succeeds (ha : Options.ofArguments arguments = .ok o)
    (hr : d.read o.file = .ok text) (h : Succeeds text p c c') (hd : Leaves o text d d') :
    (run host level arguments).run (.start d) =
      (0, ⟨d', header o.file ++ traces o c' ++ saved o ++ footer,
        log (threshold level o.debug) (opening o p ++ simulation c) ++ captions o⟩) := by
  rw [run, ha]
  dsimp only
  rw [run_bind_of (stages_run_of_succeeds hr h hd)]
  rfl

theorem run_of_fails {es : List Event} {message : String}
    (ha : Options.ofArguments arguments = .ok o) (hr : d.read o.file = .ok text)
    (h : Fails o text es message) (hd : Leaves o text d d') :
    (run host level arguments).run (.start d) =
      (1, ⟨d', header o.file,
        log (threshold level o.debug) es ++ ("Error: " ++ message ++ "\n")⟩) := by
  rw [run, ha]
  dsimp only
  rw [run_bind_of (stages_run_of_fails hr h hd)]
  dsimp only
  rw [run_bind_of (report_run _), Failure.text, String.append_empty]
  rfl

theorem succeeds_or_fails (o : Options) (text : String) :
    (∃ p c c', Succeeds text p c c') ∨ ∃ es message, Fails o text es message := by
  cases hp : Program.parse text with
  | error f => exact .inr ⟨_, _, .reading hp⟩
  | ok p =>
    cases hc : Circuit.ofProgram p with
    | error f => exact .inr ⟨_, _, .building hp hc⟩
    | ok c =>
      cases hf : c.simulate.fault with
      | some f => exact .inr ⟨_, _, .simulating hp hc hf⟩
      | none =>
        have hdone : c.simulate = .done c.simulate.state := by
          rw [Outcome.done, ← hf]
        exact .inl ⟨p, c, _, hp, hc, hdone⟩

theorem Succeeds.unique {p' : Program} {b b' : Circuit} (h : Succeeds text p c c')
    (h' : Succeeds text p' b b') : c' = b' := by
  obtain rfl : p = p' := Except.ok.inj (h.reading.symm.trans h'.reading)
  obtain rfl : c = b := Except.ok.inj (h.building.symm.trans h'.building)
  exact congrArg Outcome.state (h.simulating.symm.trans h'.simulating)

theorem Fails.not_succeeds {es : List Event} {message : String} (h : Fails o text es message) :
    ¬Succeeds text p c c' := by
  intro hs
  cases h with
  | reading hp => cases hp.symm.trans hs.reading
  | building hp hc =>
    obtain rfl := Except.ok.inj (hp.symm.trans hs.reading)
    cases hc.symm.trans hs.building
  | simulating hp hc hf =>
    obtain rfl := Except.ok.inj (hp.symm.trans hs.reading)
    obtain rfl := Except.ok.inj (hc.symm.trans hs.building)
    rw [hs.simulating] at hf
    cases hf

theorem Leaves.publishes (h : Leaves o text d d') (hp : Program.parse text = .ok p)
    (hpage : o.page = true) : Publishes o p.page d d' := by
  simpa only [Leaves, hp, if_pos hpage] using h

theorem Leaves.untouched (h : Leaves o text d d')
    (hno : (∃ f, Program.parse text = .error f) ∨ o.page = false) : d' = d := by
  unfold Leaves at h
  rcases hno with ⟨f, hf⟩ | hno
  · simpa only [hf] using h
  · split at h
    · exact h
    · simpa only [hno, Bool.false_eq_true, if_false] using h

theorem Publishes.holds {page : String} (h : Publishes o page d d') :
    d'.read (pagePath o) = .ok page ∧ ∀ l, d'.locate (pagePath o) ≠ .ok l →
      d'.entry? l = d.entry? l ∨ d.entry? l = none ∧ d'.entry? l = some .directory := by
  obtain ⟨made, hmade, hwrite⟩ := h
  refine ⟨Disk.read_write hwrite, fun l hl => ?_⟩
  have hmoved : made.locate (pagePath o) ≠ .ok l :=
    fun heq => hl ((Disk.keeps_write hwrite).locate heq)
  rw [Disk.entry?_write hwrite hmoved]
  exact hmade.growing.1.entries l

/-- What the exit code, the session and the disk of a run say about the stages of the library. -/
structure Answers (o : Options) (text : String) (least : Level) (d : Disk) (r : ℕ × Session) :
    Prop where
  code_eq_zero : r.1 = 0 ↔ ∃ p c c', Succeeds text p c c'
  printed : ∀ p c c', Succeeds text p c c' →
    r.2.printed = header o.file ++ traces o c' ++ saved o ++ footer
  failed : r.1 ≠ 0 → r.1 = 1 ∧ r.2.printed = header o.file ∧ ∃ es message,
    Fails o text es message ∧ r.2.reported = log least es ++ ("Error: " ++ message ++ "\n")
  page : ∀ p, Program.parse text = .ok p → o.page = true →
    r.2.disk.read (pagePath o) = .ok p.page ∧ ∀ l, r.2.disk.locate (pagePath o) ≠ .ok l →
      r.2.disk.entry? l = d.entry? l ∨ d.entry? l = none ∧ r.2.disk.entry? l = some .directory
  untouched : (∃ f, Program.parse text = .error f) ∨ o.page = false → r.2.disk = d

def Disk.after (d : Disk) (level : Option String) (arguments : List String) : Disk :=
  ((run host level arguments).run (.start d)).2.disk

theorem leaves_after (ha : Options.ofArguments arguments = .ok o) (hr : d.read o.file = .ok text)
    (hw : o.page = true → Admits o d) : Leaves o text d (d.after level arguments) := by
  obtain ⟨d', hd⟩ := exists_leaves hw text
  rcases succeeds_or_fails o text with ⟨p, c, c', h⟩ | ⟨es, message, h⟩
  · rw [Disk.after, run_of_succeeds ha hr h hd]
    exact hd
  · rw [Disk.after, run_of_fails ha hr h hd]
    exact hd

/-- A run does what the stages of the library do, whatever options it is asked for. A circuit with
calls without end is among those whose simulation fails. -/
theorem run_answers (hr : d.read o.file = .ok text) (hw : o.page = true → Admits o d) :
    (o.directory ≠ "" → ∃ arguments, Options.ofArguments arguments = .ok o) ∧
      ∀ level arguments, Options.ofArguments arguments = .ok o →
        Answers o text (threshold level o.debug) d
          ((run host level arguments).run (.start d)) := by
  refine ⟨fun hd => ⟨o.arguments, Options.ofArguments_arguments (Disk.ne_empty_of_read hr) hd⟩,
    fun level arguments ha => ?_⟩
  have hleaves : Leaves o text d (d.after level arguments) := leaves_after ha hr hw
  have hpage := fun p hp hpage => (hleaves.publishes (p := p) hp hpage).holds
  obtain ⟨d', hd⟩ := exists_leaves hw text
  rcases succeeds_or_fails o text with ⟨p, c, c', h⟩ | ⟨es, message, h⟩
  · have hrun : (run host level arguments).run (.start d) = _ := run_of_succeeds ha hr h hd
    exact {
      code_eq_zero := by
        rw [hrun]
        exact ⟨fun _ => ⟨p, c, c', h⟩, fun _ => rfl⟩
      printed := by
        intro q b b' h'
        rw [hrun, h.unique h']
      failed := by
        rw [hrun]
        exact fun hne => absurd rfl hne
      page := hpage
      untouched := hleaves.untouched }
  · have hrun : (run host level arguments).run (.start d) = _ := run_of_fails ha hr h hd
    exact {
      code_eq_zero := by
        rw [hrun]
        exact ⟨nofun, fun ⟨p, c, c', hs⟩ => absurd hs h.not_succeeds⟩
      printed := fun p c c' hs => absurd hs h.not_succeeds
      failed := by
        rw [hrun]
        exact fun _ => ⟨rfl, rfl, es, message, h, rfl⟩
      page := hpage
      untouched := hleaves.untouched }

theorem admits_of_isDirectory {l : Location} (hd : d.isDirectory o.directory = true)
    (hl : d.locate (pagePath o) = .ok l) (hne : d.entry? l ≠ some .directory) : Admits o d :=
  ⟨d, Disk.makes_of_present fun _ => .inr hd, fun _ => ⟨_, Disk.write_eq_ok.mpr ⟨l, hl, hne, rfl⟩⟩⟩

def ragged : String :=
  ".hardware ragged .inputs A B .outputs C .update C = A .simulate A = 01 B = 1"

def bench : Disk :=
  ((Disk.empty ["home"]).put ["home", "pages"] .directory).put ["home", "ragged.hw"] (.text ragged)

def atBench : Options := ⟨"ragged.hw", "pages", true, false, false⟩

/-- The page of a circuit that cannot be built is there all the same. -/
theorem run_answers_ragged : ∃ p r, Program.parse ragged = .ok p ∧
    (run host none ["--html-dir=pages", "ragged.hw"]).run (.start bench) = r ∧ r.1 = 1 ∧
      r.2.printed = header "ragged.hw" ∧ r.2.disk.read "pages/ragged.html" = .ok p.page := by
  have hr : bench.read atBench.file = .ok ragged := by rfl
  have hw : Admits atBench bench :=
    admits_of_isDirectory (l := ["home", "pages", "ragged.html"]) rfl rfl nofun
  have ho : Options.ofArguments ["--html-dir=pages", "ragged.hw"] = .ok atBench := rfl
  have hpath : pagePath atBench = "pages/ragged.html" := rfl
  obtain ⟨p, f, hp, hf⟩ : ∃ p f, Program.parse ragged = .ok p ∧ Circuit.ofProgram p = .error f :=
    ⟨_, _, rfl, rfl⟩
  have h := (run_answers hr fun _ => hw).2 none _ ho
  obtain ⟨r, hrun⟩ :
      ∃ r, (run host none ["--html-dir=pages", "ragged.hw"]).run (.start bench) = r := ⟨_, rfl⟩
  rw [hrun] at h
  have hfails : Fails atBench ragged (opening atBench p) f.message := .building hp hf
  have hne : r.1 ≠ 0 := by
    intro hzero
    obtain ⟨_, _, _, hs⟩ := h.code_eq_zero.mp hzero
    exact hfails.not_succeeds hs
  obtain ⟨hone, hprinted, -⟩ := h.failed hne
  exact ⟨p, r, hp, hrun, hone, hprinted, hpath ▸ (h.page p hp rfl).1⟩

end answers

end CommandLine

end SyncCircuit
