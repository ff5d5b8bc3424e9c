import SyncCircuit.Proofs.Faults
import SyncCircuit.Proofs.Parsing
import SyncCircuit.Proofs.Repetition
import SyncCircuit.Report.Traces

/-!
What can still go wrong with a description that has been read. The traces in it have a value in each
of their cells, so that they serve a simulation if they have one length, and an input has a value in
every cycle or in none.
-/

namespace SyncCircuit

namespace Trace

theorem isSome_cells_iff {tr : Trace} :
    (∀ cell ∈ tr.cells, cell.isSome) ↔ ∀ t < tr.length, (tr.get? t).isSome := by
  rw [List.forall_mem_iff_forall_getElem]
  refine forall_congr' fun t => forall_congr' fun ht => ?_
  rw [get?, List.getElem?_eq_getElem ht, Option.join_some]

theorem notMem_bits_iff {tr : Trace} :
    'X' ∉ tr.bits.toList ↔ ∀ cell ∈ tr.cells, cell.isSome := by
  have hcell : ∀ cell : Option Bool, cellChar cell = 'X' ↔ cell = none := by decide
  simp only [toList_bits, List.mem_map, hcell, exists_eq_right,
    Option.isSome_iff_ne_none]
  exact ⟨fun h cell hcell hn => h (hn ▸ hcell), fun h hn => h none hn rfl⟩

end Trace

namespace Program

open Grammar

variable {text : String} {p : Program}

theorem complete_of_parse (h : parse text = .ok p) : ∀ tr ∈ p.stimuli, tr.Complete := by
  obtain ⟨ps, hps, hd⟩ := parse_eq_ok_iff.mp h
  generalize hts : ps.map Placed.token = ts at hd
  cases hd with
  | mk _ _ _ _ _ _ hs =>
    intro tr htr
    obtain ⟨us, hus, hstimulus⟩ := hs.exists_phrase tr htr
    obtain ⟨x, values, rfl, rfl⟩ := stimulus_iff.mp hstimulus
    have hlast : Token.bits values ∈ [.name x, .mark .equals, .bits values] := by simp
    have hsection := hus.subset hlast
    have hmem : Token.bits values ∈ ps.map Placed.token := by
      rw [hts]
      exact List.mem_append_right _ (List.mem_cons_of_mem _ hsection)
    obtain ⟨q, hq, hbits⟩ := List.mem_map.mp hmem
    exact Trace.complete_ofValues (hps.bits_ne_nil q hq values hbits)

def Undriven (p : Program) (x : Name) : Prop := ∀ tr ∈ p.stimuli, tr.signal ≠ x

structure FirstUndriven (p : Program) (x : Name) : Prop where
  undriven : p.Undriven x
  first : ∃ before after, p.inputs = before ++ x :: after ∧ ∀ y ∈ before, ¬ p.Undriven y

structure FirstUneven (p : Program) (first tr : Trace) : Prop where
  head : p.stimuli.head? = some first
  uneven : tr.length ≠ first.length
  before : ∃ before after, p.stimuli = before ++ tr :: after ∧
    ∀ u ∈ before, u.length = first.length

theorem firstUndriven_iff {x : Name} [DecidablePred p.Undriven] :
    p.FirstUndriven x ↔ p.inputs.find? (p.Undriven ·) = some x := by
  simp only [List.find?_eq_some_iff_append, decide_eq_true_eq, Bool.not_eq_true',
    decide_eq_false_iff_not]
  exact ⟨fun h => ⟨h.undriven, h.first⟩, fun h => ⟨h.1, h.2⟩⟩

theorem exists_firstUndriven_iff :
    (∃ x, p.FirstUndriven x) ↔ ∃ x ∈ p.inputs, p.Undriven x := by
  classical
  simp only [firstUndriven_iff, ← Option.isSome_iff_exists, List.find?_isSome, decide_eq_true_eq]

theorem firstUneven_iff {first tr : Trace} : p.FirstUneven first tr ↔
    p.stimuli.head? = some first ∧ p.stimuli.find? (·.length ≠ first.length) = some tr := by
  simp only [List.find?_eq_some_iff_append, decide_eq_true_eq, Bool.not_eq_true',
    decide_eq_false_iff_not, not_not]
  exact ⟨fun h => ⟨h.head, h.uneven, h.before⟩, fun h => ⟨h.1, h.2.1, h.2.2⟩⟩

theorem exists_firstUneven_iff : (∃ first tr, p.FirstUneven first tr) ↔
    ∃ first ∈ p.stimuli.head?, ∃ tr ∈ p.stimuli, tr.length ≠ first.length := by
  simp only [firstUneven_iff, exists_and_left, ← Option.isSome_iff_exists, List.find?_isSome,
    decide_eq_true_eq]
  rfl

end Program

namespace Circuit

open Simulation (after)

variable {p : Program} {c : Circuit} {t : ℕ} {x : Name}

theorem ofProgram_eq_error_iff {f : Fault} : ofProgram p = .error f ↔
    ∃ first tr, p.FirstUneven first tr ∧ f = .unequalLengths tr.signal first.length tr.length := by
  simp only [Program.firstUneven_iff]
  unfold ofProgram
  dsimp only
  split
  · next tr h =>
    obtain ⟨first, hfirst⟩ : ∃ first, p.stimuli.head? = some first :=
      ⟨_, List.head?_eq_some_head (List.ne_nil_of_mem (List.mem_of_find?_eq_some h))⟩
    rw [hfirst, Option.map_some, Option.getD_some] at h ⊢
    constructor
    · intro hf
      cases hf
      exact ⟨first, tr, ⟨rfl, h⟩, rfl⟩
    · rintro ⟨first', tr', ⟨hfirst', h'⟩, rfl⟩
      obtain rfl := Option.some.inj hfirst'
      obtain rfl := Option.some.inj (h.symm.trans h')
      rfl
  · next h =>
    simp only [reduceCtorEq, false_iff]
    rintro ⟨first, tr, ⟨hfirst, h'⟩, -⟩
    rw [hfirst, Option.map_some, Option.getD_some, h'] at h
    cases h

theorem Describes.stimulusAt_eq_none (hc : c.Describes p) (hp : ∀ tr ∈ p.stimuli, tr.Complete)
    (ht : t = 0 ∨ t < c.length) : c.stimulusAt x t = none ↔ p.Undriven x := by
  rw [hc.stimulusAt]
  cases hfind : p.stimuli.find? (·.signal = x) with
  | none => simpa [Program.Undriven] using hfind
  | some tr =>
    have htr := List.mem_of_find?_eq_some hfind
    have hlt : t < tr.length := by
      rcases ht with rfl | ht
      · exact (hp tr htr).length_pos
      · rwa [c.length_eq tr (hc.stimuli ▸ htr)]
    have hset := Trace.isSome_cells_iff.mp (hp tr htr).set t hlt
    have hdriven : ¬ p.Undriven x := fun hn => hn tr htr (by simpa using List.find?_some hfind)
    simp [hdriven, Option.isSome_iff_ne_none.mp hset]

theorem Describes.find?_stimulusAt (hc : c.Describes p) (hp : ∀ tr ∈ p.stimuli, tr.Complete)
    (ht : t = 0 ∨ t < c.length) :
    c.inputs.find? (c.stimulusAt · t = none) = some x ↔ p.FirstUndriven x := by
  classical
  have hsame : ∀ y, decide (c.stimulusAt y t = none) = decide (p.Undriven y) :=
    fun y => decide_eq_decide.mpr (hc.stimulusAt_eq_none hp ht)
  simp only [Program.firstUndriven_iff, hc.inputs, hsame]

/-- An input that fails in a later cycle would have failed in the first one. -/
theorem Describes.fault_cases (hc : c.Describes p) (hp : ∀ tr ∈ p.stimuli, tr.Complete)
    {calls : List Call} {call : Call} {f : Fault}
    (hf : ((after c calls).perform call).fault = some f) :
    (∃ x, p.FirstUndriven x ∧ f = .missingInput x 0) ∨
      ∃ t e, f = .atCycle t e ∧ ((after c calls).perform call).state.phase.pending = some t ∧
        (e.OfNames ∨ e = .endlessCall ∧ ∃ u ∈ c.updates,
          u.value.Endless ((after c calls).perform call).state.environment) := by
  obtain ⟨t, ht, hlt, ho⟩ := Simulation.perform_obstructed hf
  cases ho with
  | @input x hx =>
    have hfirst : p.FirstUndriven x := (hc.find?_stimulusAt hp (hlt.imp_right And.left)).mp hx
    have hzero := (hc.find?_stimulusAt hp (Or.inl rfl)).mpr hfirst
    rcases hlt with rfl | ⟨-, hstart⟩
    · exact Or.inl ⟨x, hfirst, rfl⟩
    · rw [Simulation.reset_undriven hzero] at hstart
      cases hstart
  | @names e he => exact Or.inr ⟨t, e, rfl, ht, Or.inl he⟩
  | endless hu he => exact Or.inr ⟨t, _, rfl, ht, Or.inr ⟨rfl, _, hu, he⟩⟩

theorem Describes.missingInput_iff (hc : c.Describes p) (hp : ∀ tr ∈ p.stimuli, tr.Complete)
    {calls : List Call} {call : Call} {n : ℕ} :
    ((after c calls).perform call).fault = some (.missingInput x n) ↔
      n = 0 ∧ p.FirstUndriven x := by
  constructor
  · intro hf
    rcases hc.fault_cases hp hf with ⟨y, hy, heq⟩ | ⟨t, e, heq, -⟩
    · cases heq
      exact ⟨rfl, hy⟩
    · cases heq
  · rintro ⟨rfl, hx⟩
    exact Simulation.perform_undriven ((hc.find?_stimulusAt hp (Or.inl rfl)).mpr hx) calls call

def reported (c : Circuit) : List Trace := c.stimuli ++ c.recorded

theorem textReport_eq_lines (c : Circuit) : c.textReport = Trace.lines c.reported :=
  (Trace.lines_append c.stimuli c.recorded).symm

theorem notMem_bits_of_simulate {c' : Circuit} (hp : ∀ tr ∈ c.stimuli, tr.Complete)
    (h : c.simulate = .done c') : ∀ tr ∈ c'.reported, 'X' ∉ tr.bits.toList := by
  obtain ⟨hc', -, hset⟩ := simulate_records h
  intro tr htr
  rw [Trace.notMem_bits_iff]
  rw [hc'] at htr
  rcases List.mem_append.mp htr with hs | hr
  · exact (hp tr hs).set
  · obtain ⟨hlen, hset⟩ := hset tr hr
    rw [← hlen] at hset
    exact Trace.isSome_cells_iff.mpr hset

/-- What can go wrong with a description that has been read. Traces of different lengths do not make
a circuit. In a simulation every call fails for the first input without a trace, if there is one. If
there is none, a call fails at most in the cycle that comes next, for a name that means nothing or a
call that does not fit; it has no other fault, unless it stands for calls that never come back. The
reports of a simulation that succeeds show a value in each cell. -/
theorem faults_of_parse {text : String} (hp : Program.parse text = .ok p) :
    (∀ f, ofProgram p = .error f ↔ ∃ first tr, p.FirstUneven first tr ∧
      f = .unequalLengths tr.signal first.length tr.length) ∧
    ((∃ f, ofProgram p = .error f) ↔
      ∃ first ∈ p.stimuli.head?, ∃ tr ∈ p.stimuli, tr.length ≠ first.length) ∧
    ∀ c, ofProgram p = .ok c →
      (∀ calls call f, ((after c calls).perform call).fault = some f →
        (∃ x, f = .missingInput x 0) ∨
          ∃ t e, f = .atCycle t e ∧ f.root = e ∧
            ((after c calls).perform call).state.phase.pending = some t ∧
            (e.OfNames ∨ e = .endlessCall ∧ ∃ u ∈ c.updates,
              u.value.Endless ((after c calls).perform call).state.environment)) ∧
      (∀ calls call x n, ((after c calls).perform call).fault = some (.missingInput x n) ↔
        n = 0 ∧ p.FirstUndriven x) ∧
      ((∃ x, p.FirstUndriven x) ↔ ∃ x ∈ p.inputs, p.Undriven x) ∧
      ∀ c', c.simulate = .done c' → c'.textReport = Trace.lines c'.reported ∧
        ∀ tr ∈ c'.reported, 'X' ∉ tr.bits.toList := by
  have hcomplete := Program.complete_of_parse hp
  refine ⟨fun f => ofProgram_eq_error_iff, ?_, fun c hc => ?_⟩
  · rw [← Program.exists_firstUneven_iff]
    constructor
    · rintro ⟨f, hf⟩
      obtain ⟨first, tr, h, -⟩ := ofProgram_eq_error_iff.mp hf
      exact ⟨first, tr, h⟩
    · rintro ⟨first, tr, h⟩
      exact ⟨_, ofProgram_eq_error_iff.mpr ⟨first, tr, h, rfl⟩⟩
  · have hdesc := ofProgram_eq_ok_iff.mp hc
    refine ⟨fun calls call f hf => ?_, fun _ _ _ _ => hdesc.missingInput_iff hcomplete,
      Program.exists_firstUndriven_iff, fun c' hc' => ⟨c'.textReport_eq_lines, ?_⟩⟩
    · rcases hdesc.fault_cases hcomplete hf with ⟨x, -, rfl⟩ | ⟨t, e, rfl, ht, he⟩
      · exact Or.inl ⟨x, rfl⟩
      · refine Or.inr ⟨t, e, rfl, ?_, ht, he⟩
        rcases he with he | ⟨rfl, -⟩
        · exact he.root t
        · rfl
    · exact notMem_bits_of_simulate (hdesc.stimuli ▸ hcomplete) hc'

theorem faults_of_parse_undriven : ∃ p c,
    Program.parse ".hardware m .inputs A B C .outputs S .update S = A * f(B) .simulate A = 10" =
        .ok p ∧
      ofProgram p = .ok c ∧
      ∀ calls call, ((after c calls).perform call).fault = some (.missingInput "B" 0) := by
  obtain ⟨p, c, hp, hc, hinputs, hstimuli⟩ : ∃ p c,
      Program.parse ".hardware m .inputs A B C .outputs S .update S = A * f(B) .simulate A = 10" =
        .ok p ∧ ofProgram p = .ok c ∧ p.inputs = ["A", "B", "C"] ∧
        p.stimuli = [.ofValues "A" [true, false]] := ⟨_, _, rfl, rfl, rfl, rfl⟩
  have hundriven : ∀ x, p.Undriven x ↔ "A" ≠ x := by
    intro x
    rw [Program.Undriven, hstimuli]
    exact List.forall_mem_singleton
  have hfirst : p.FirstUndriven "B" := by
    refine ⟨(hundriven "B").mpr (by decide), ["A"], ["C"], hinputs, ?_⟩
    simp only [hundriven]
    decide
  obtain ⟨-, -, haccepted⟩ := faults_of_parse hp
  obtain ⟨-, hmissing, -⟩ := haccepted c hc
  exact ⟨p, c, hp, hc, fun calls call => (hmissing calls call "B" 0).mpr ⟨rfl, hfirst⟩⟩

end Circuit

end SyncCircuit
