import SyncCircuit.Proofs.Calls
import SyncCircuit.Proofs.Carried

/-!
Well-formed descriptions run to the end. The names that are bound grow along each cycle, from the
inputs over the latch outputs to the targets, and stay bound for the next one.
-/

namespace SyncCircuit

namespace Program

def definition? (p : Program) (f : Name) : Option Definition :=
  p.definitions.reverse.find? (·.name = f)

/-- All that is read is driven, latched or computed before, and all calls come to an end. The trace
of an input is the first one of its name. -/
structure WellFormed (p : Program) : Prop where
  driven : ∀ x ∈ p.inputs, ∃ tr, p.stimuli.find? (·.signal = x) = some tr ∧ 1 ≤ tr.length ∧
    ∀ t < tr.length, (tr.get? t).isSome
  ordered : ∀ before u after, p.updates = before ++ u :: after → ∀ x ∈ u.value.signals,
    x ∈ p.inputs ∨ x ∈ p.latches.map latchOutput ∨ x ∈ before.map Update.target
  observed : ∀ x ∈ p.outputs,
    x ∈ p.inputs ∨ x ∈ p.latches.map latchOutput ∨ x ∈ p.updates.map Update.target
  latched : ∀ x ∈ p.latches, x ∈ p.inputs ∨ x ∈ p.updates.map Update.target
  callable : Callable p.definition? p.updates

end Program

theorem Assignment.run_ok {α : Type} {A : Assignment α} (reads : α → Set Name) {S : Set Name}
    {as : List α} {env : Environment} (ho : Ordered reads A.name S as)
    (hv : ∀ a ∈ as, ∀ e : Environment, e.definitions = env.definitions →
      (∀ x ∈ reads a, e.binds x) → ∃ b, A.value e a = .ok b)
    (hs : ∀ x ∈ S, env.binds x) : ∃ env', A.run as env = .done env' := by
  induction as generalizing S env with
  | nil => exact ⟨env, rfl⟩
  | cons a as ih =>
    obtain ⟨b, hb⟩ := hv a List.mem_cons_self env rfl fun x hx => hs x (ho.1 hx)
    have hs' : ∀ x ∈ insert (A.name a) S, (env.bind (A.name a) b).binds x := by
      intro x hx
      rcases Set.mem_insert_iff.mp hx with rfl | hx
      · exact Environment.binds_iff.mpr ⟨b, Environment.bind_values_self env _ b⟩
      · exact (Environment.Rebinds.bind (List.mem_singleton.mpr rfl) env b).grows x (hs x hx)
    obtain ⟨env', he⟩ : ∃ env', A.run as (env.bind (A.name a) b) = .done env' :=
      ih ho.2 (fun c hc => hv c (List.mem_cons_of_mem a hc)) hs'
    exact ⟨env', run_cons_eq_done.mpr ⟨b, hb, he⟩⟩

namespace Circuit

/-- Every pass of every cycle finds what it reads. -/
structure Supplied (c : Circuit) : Prop where
  driven : ∀ x ∈ c.inputs, ∀ t < c.length, ∃ b, c.stimulusAt x t = some b
  started : c.inputs ≠ [] → 0 < c.length
  ordered : c.carried = []
  observed : ∀ x ∈ c.outputs, x ∈ c.signals
  latched : ∀ x ∈ c.latches, x ∈ c.signals
  callable : Callable c.definitions.find? c.updates

variable {p : Program} {c : Circuit} {t : ℕ} {env : Environment}

theorem Describes.find? (h : c.Describes p) (f : Name) :
    c.definitions.find? f = p.definition? f := by
  rw [h.definitions]
  exact Definitions.find?_ofList p.definitions f

theorem supplied_of_wellFormed (h : p.WellFormed) (hc : ofProgram p = .ok c) : c.Supplied := by
  obtain ⟨hi, ho, hl, -, hu⟩ := ofProgram_eq_ok hc
  have hdesc := ofProgram_eq_ok_iff.mp hc
  have trace : ∀ x ∈ c.inputs, ∃ tr, c.stimulus? x = some tr ∧ 1 ≤ tr.length ∧
      tr.length = c.length ∧ ∀ t < tr.length, (tr.get? t).isSome := by
    intro x hx
    obtain ⟨tr, htr, hlen, hset⟩ := h.driven x (hi ▸ hx)
    rw [← hdesc.stimuli] at htr
    exact ⟨tr, htr, hlen, c.length_eq tr (List.mem_of_find?_eq_some htr), hset⟩
  have hfind : c.definitions.find? = p.definition? := funext hdesc.find?
  constructor
  · intro x hx t ht
    obtain ⟨tr, htr, _, hlen, hset⟩ := trace x hx
    rw [stimulusAt, htr]
    exact Option.isSome_iff_exists.mp (hset t (hlen ▸ ht))
  · intro hne
    obtain ⟨x, hx⟩ := List.exists_mem_of_ne_nil _ hne
    obtain ⟨tr, _, hpos, hlen, _⟩ := trace x hx
    omega
  · rw [carried_eq_nil_iff, hi, hu, latchOutputs, hl]
    exact h.ordered
  · intro x hx
    rw [mem_signals, hi, latchOutputs, hl, targets, hu]
    exact h.observed x (ho ▸ hx)
  · intro x hx
    rw [mem_signals, hi, targets, hu]
    exact (h.latched x (hl ▸ hx)).imp_right .inr
  · rw [hfind, hu]
    exact h.callable

theorem Supplied.settles (h : c.Supplied) (ht : t < c.length)
    (hd : env.definitions = c.definitions) (hl : 0 < t → ∀ x ∈ c.latches, env.binds x) :
    ∃ env', c.Settles t env env' := by
  -- Each pass binds what the next one reads, and unbinds nothing.
  obtain ⟨driven, hdriven⟩ : ∃ driven, (c.driving t).run c.inputs env = .done driven := by
    refine Assignment.run_ok (fun _ => ∅) (S := ∅)
      (Assignment.ordered_of_subset fun _ _ => subset_rfl) (fun x hx _ _ _ => ?_)
      fun x hx => hx.elim
    obtain ⟨b, hb⟩ := h.driven x hx t ht
    exact ⟨b, driving_value.mpr hb⟩
  have hdr := Assignment.rebinds_of_run hdriven
  obtain ⟨latched, hlatched⟩ : ∃ latched, (latching t).run c.latches driven = .done latched := by
    refine Assignment.run_ok (fun x => {y | y = x ∧ 0 < t}) (S := {x | driven.binds x})
      (Assignment.ordered_of_subset fun x hx y hy => hy.1 ▸ hdr.grows x (hl hy.2 x hx))
      (fun x hx e _ he => ?_) fun x hx => hx
    by_cases h0 : t = 0
    · exact ⟨false, by simp [latching, h0]⟩
    · obtain ⟨b, hb⟩ := Environment.binds_iff.mp (he x ⟨rfl, Nat.pos_of_ne_zero h0⟩)
      exact ⟨b, by simp [latching, h0, Environment.get_eq_ok.mpr hb]⟩
  have hlr := Assignment.rebinds_of_run hlatched
  have hdefs : latched.definitions = c.definitions :=
    hlr.definitions.trans (hdr.definitions.trans hd)
  have hordered : Assignment.Ordered (fun u => u.value.reads) Update.target
      {x | latched.binds x} c.updates := by
    refine ordered_updates (fun x hx => ?_) (fun x hx => Assignment.binds_of_run hlatched hx) ?_
    · exact hlr.grows x (Assignment.binds_of_run hdriven (by simpa [driving] using hx))
    · rw [h.ordered]
      exact List.forall_mem_nil _
  obtain ⟨env', hupdated⟩ : ∃ env', updating.run c.updates latched = .done env' := by
    refine Assignment.run_ok _ hordered (fun u hu e hde he => ?_) fun x hx => hx
    have hcallable : Callable e.definitions.find? c.updates := by
      rw [hde, hdefs]
      exact h.callable
    exact hcallable.eval_ok hu he
  exact ⟨env', driven, latched, hdriven, hlatched, hupdated⟩

end Circuit

namespace Simulation

variable {c : Circuit} {s s' : Simulation} {t : ℕ}

theorem exists_record_all (h : c.Supplied) {env env' : Environment} (he : c.Settles t env env')
    (ht : t < c.length) {ts : List Trace} (hn : ts.map Trace.signal = c.outputs)
    (hl : ∀ tr ∈ ts, tr.length = c.length) :
    ∃ ts', Outcome.mapEach (Trace.record env' t) ts = .done ts' := by
  refine Outcome.mapEach_done fun tr htr => Trace.exists_record ?_ ?_
  · have ho : tr.signal ∈ c.outputs := hn ▸ List.mem_map_of_mem htr
    exact he.binds (h.observed _ ho)
  · rw [hl tr htr]
    exact ht

theorem clock_ok (h : c.Supplied) (hs : Coherent c s) : ∃ s', s.clock = .done s' := by
  obtain rfl := hs.circuit
  cases hp : s.phase with
  | uninitialized =>
    rw [clock_of_uninitialized hp]
    by_cases hl : s.circuit.length = 0
    · have hnil : s.circuit.inputs = [] := by
        by_contra hne
        have := h.started hne
        omega
      have hrun : (s.circuit.driving 0).run s.circuit.inputs (.empty s.circuit.definitions) =
          .done (.empty s.circuit.definitions) := by
        rw [hnil]
        rfl
      exact ⟨_, (reset_eq_done_of_length_eq_zero hl).mpr ⟨_, hrun, rfl⟩⟩
    · have hpos := Nat.pos_of_ne_zero hl
      have shaped := shaped_cleared (s := s) rfl
      obtain ⟨env, he⟩ : ∃ env, s.circuit.Settles 0 (.empty s.circuit.definitions) env :=
        h.settles hpos rfl fun h0 => absurd h0 (Nat.lt_irrefl 0)
      obtain ⟨ts, hts⟩ := exists_record_all h he hpos shaped.names shaped.lengths
      exact ⟨_, (reset_eq_done_of_length_pos hpos).mpr ⟨env, ts, he, hts, rfl⟩⟩
  | cycle t =>
    by_cases ht : t + 1 < s.circuit.length
    · rw [clock_of_cycle hp ht]
      have hne : s.phase ≠ .uninitialized := by simp [hp]
      obtain ⟨env, he⟩ := h.settles ht hs.definitions
        fun _ x hx => hs.settled hne (by omega) x (h.latched x hx)
      obtain ⟨ts, hts⟩ := exists_record_all h he ht hs.names hs.lengths
      exact ⟨_, advance_eq_done.mpr ⟨env, ts, he, hts, rfl⟩⟩
    · exact ⟨_, clock_of_last hp (by omega)⟩
  | done => exact ⟨_, clock_of_done hp⟩

theorem clocks_ok (h : c.Supplied) (hs : Coherent c s) (n : ℕ) :
    ∃ s', clocks n s = .done s' := by
  induction n generalizing s with
  | zero => exact ⟨s, rfl⟩
  | succ n ih =>
    obtain ⟨r, hr⟩ := clock_ok h hs
    obtain ⟨s', hs'⟩ := ih (hs.of_clock hr)
    exact ⟨s', by rw [clocks_succ, hr, Outcome.done_andThen, hs']⟩

end Simulation

/-- The simulation of a well-formed description succeeds and sets every cell of every output. -/
theorem Circuit.simulate_completes {p : Program} {c : Circuit} (h : p.WellFormed)
    (hc : ofProgram p = .ok c) : ∃ c', c.simulate = .done c' ∧
      c'.recorded.map Trace.signal = c.outputs ∧
      ∀ tr ∈ c'.recorded, tr.length = c.length ∧ ∀ t < c.length, (tr.get? t).isSome := by
  have hs := supplied_of_wellFormed h hc
  obtain ⟨s, hrun⟩ := Simulation.clocks_ok hs (Simulation.coherent_start c) _
  have hclocked := Simulation.clocked_of_clocks .start hrun
  have hphase := Simulation.phase_of_clocks .start hrun le_rfl
  have hcoherent := hclocked.coherent
  refine ⟨{ c with recorded := s.outputs }, ?_, hcoherent.names, fun tr htr =>
    ⟨hcoherent.lengths tr htr, hcoherent.done hphase tr htr⟩⟩
  simp only [simulate, Simulation.run, hrun, Outcome.done_fault, Outcome.done_state]

theorem Program.mem_of_definition? {p : Program} {f : Name} {d : Definition}
    (h : p.definition? f = some d) : d ∈ p.definitions ∧ d.name = f :=
  ⟨List.mem_reverse.mp (List.mem_of_find?_eq_some h), by simpa using List.find?_some h⟩

/-- The parity of the bits of the input so far, with functions that call functions. -/
def Program.parity : Program where
  name := "parity"
  inputs := ["A"]
  outputs := ["P"]
  latches := ["P"]
  definitions := [
    ⟨"nand", ["X", "Y"], .not (.and (.signal "X") (.signal "Y"))⟩,
    ⟨"xor", ["X", "Y"], .call "nand" [
      .call "nand" [.signal "X", .call "nand" [.signal "X", .signal "Y"]],
      .call "nand" [.signal "Y", .call "nand" [.signal "X", .signal "Y"]]]⟩]
  updates := [⟨"P", .call "xor" [.signal "A", .signal "P'"]⟩]
  stimuli := [.ofValues "A" [true, true, false]]

theorem Program.callable_parity : Callable parity.definition? parity.updates := by
  -- The bodies call nothing but nand, and only that of xor does.
  have calls : ∀ d ∈ parity.definitions, ∀ g n, Expr.Node.call g n ∈ d.body.nodes →
      d.name = "xor" ∧ g = "nand" ∧ n = 2 := by
    intro d hd g n hg
    simp only [parity, List.mem_cons, List.not_mem_nil, or_false] at hd
    rcases hd with rfl | rfl
    · simp at hg
    · simpa using hg
  constructor
  · intro u hu g n hg
    obtain rfl := List.mem_singleton.mp hu
    obtain ⟨rfl, rfl⟩ : g = "xor" ∧ n = 2 := by simpa using hg
    rfl
  · intro f _ d hd g n hg
    obtain ⟨_, rfl, rfl⟩ := calls d (mem_of_definition? hd).1 g n hg
    rfl
  · intro f _ d hd
    have hreads : ∀ d ∈ parity.definitions, ∀ x ∈ d.body.signals, x ∈ d.parameters := by decide
    exact hreads d (mem_of_definition? hd).1
  · intro f _
    refine not_transGen_calls (fun f => if f = "xor" then 1 else 0) (fun f g h => ?_) f
    obtain ⟨d, n, hd, hg⟩ := h
    obtain ⟨hmem, rfl⟩ := mem_of_definition? hd
    obtain ⟨hx, rfl, _⟩ := calls d hmem g n hg
    simp [hx]

theorem Circuit.simulate_completes_parity : Program.parity.WellFormed ∧
    ∃ c c', ofProgram Program.parity = .ok c ∧ c.simulate = .done c' ∧
      c'.recorded.map Trace.signal = ["P"] ∧
      ∀ tr ∈ c'.recorded, tr.length = 3 ∧ ∀ t < 3, (tr.get? t).isSome := by
  have h : Program.parity.WellFormed := {
    driven := by
      intro x hx
      obtain rfl := List.mem_singleton.mp hx
      exact ⟨.ofValues "A" [true, true, false], rfl, by decide, by decide⟩
    ordered := by
      rintro (_ | ⟨v, before⟩) u after heq x hx
      · obtain ⟨rfl, rfl⟩ := List.cons.inj heq
        have hreads : x = "A" ∨ x = "P'" := by simpa [Expr.mem_signals] using hx
        rcases hreads with rfl | rfl <;> decide
      · simp [Program.parity] at heq
    observed := by decide
    latched := by decide
    callable := Program.callable_parity }
  obtain ⟨c, hc⟩ : ∃ c, ofProgram Program.parity = .ok c := ⟨_, rfl⟩
  obtain ⟨c', hs, hnames, hcells⟩ := simulate_completes h hc
  have hlength : c.length = 3 := by
    cases hc
    rfl
  obtain ⟨_, ho, _⟩ := ofProgram_eq_ok hc
  rw [ho] at hnames
  rw [hlength] at hcells
  exact ⟨h, c, c', hc, hs, hnames, hcells⟩

end SyncCircuit
