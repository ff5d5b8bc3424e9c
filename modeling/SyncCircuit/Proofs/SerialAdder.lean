import Mathlib.Data.Nat.Digits.Defs
import Mathlib.Tactic.Ring
import SyncCircuit.Proofs.Listing
import SyncCircuit.Proofs.Nesting
import SyncCircuit.Proofs.Progress
import SyncCircuit.Proofs.Synchrony

/-!
The serial adder adds. Its text is read as a description with two functions, each of its cycles adds
one bit of both numbers and the carry, and the latch hands the carry on to the next cycle.
-/

namespace SyncCircuit

open SyncCircuit.Expr
  (Prints prints_block prints_negation prints_product prints_signal prints_sum)
open Grammar (Def Description Ident Repeated)

section numbers

variable {a b : List Bool} {t : ℕ} {x y : Bool}

/-- The number with these bits, the least significant one first. -/
def number (bits : List Bool) : ℕ := Nat.ofDigits 2 (bits.map Bool.toNat)

def carry (a b : List Bool) (t : ℕ) : Bool :=
  decide (2 ^ t ≤ number (a.take t) + number (b.take t))

def sumBit (a b : List Bool) (t : ℕ) : Bool :=
  a[t]?.getD false ^^ b[t]?.getD false ^^ carry a b t

theorem number_concat (bits : List Bool) (x : Bool) :
    number (bits ++ [x]) = number bits + 2 ^ bits.length * x.toNat := by
  rw [number, List.map_append, Nat.ofDigits_append, List.length_map, List.map_singleton,
    Nat.ofDigits_singleton, number]

theorem number_take_succ (h : a[t]? = some x) :
    number (a.take (t + 1)) = number (a.take t) + 2 ^ t * x.toNat := by
  obtain ⟨ht, _⟩ := List.getElem?_eq_some_iff.mp h
  rw [List.take_add_one, h, Option.toList_some, number_concat, List.length_take,
    Nat.min_eq_left ht.le]

theorem number_take_lt (bits : List Bool) (t : ℕ) : number (bits.take t) < 2 ^ t := by
  have hdigits : ∀ d ∈ (bits.take t).map Bool.toNat, d < 2 :=
    List.forall_mem_map.mpr fun b _ => b.toNat_lt
  have hlt := Nat.ofDigits_lt_base_pow_length (by decide) hdigits
  refine hlt.trans_le (Nat.pow_le_pow_right (by decide) ?_)
  rw [List.length_map]
  exact List.length_take_le t bits

theorem carry_succ (ha : a[t]? = some x) (hb : b[t]? = some y) :
    carry a b (t + 1) = Bool.atLeastTwo x y (carry a b t) := by
  have hna := number_take_lt a t
  have hnb := number_take_lt b t
  unfold carry
  rw [number_take_succ ha, number_take_succ hb, Nat.pow_succ]
  cases x <;> cases y <;> simp <;> omega

theorem carry_zero (a b : List Bool) : carry a b 0 = false := by simp [carry, number]

/-- The sum bits so far and the carry are what the numbers so far add up to. -/
theorem number_sumBits (hl : a.length = b.length) (ht : t ≤ a.length) :
    number ((List.range t).map (sumBit a b)) + 2 ^ t * (carry a b t).toNat =
      number (a.take t) + number (b.take t) := by
  induction t with
  | zero => simp [carry_zero, number]
  | succ t ih =>
    have ih := ih (by omega)
    obtain ⟨x, hx⟩ : ∃ x, a[t]? = some x := ⟨_, List.getElem?_eq_getElem (by omega)⟩
    obtain ⟨y, hy⟩ : ∃ y, b[t]? = some y := ⟨_, List.getElem?_eq_getElem (by omega)⟩
    have hadd : (x ^^ y ^^ carry a b t).toNat + 2 * (Bool.atLeastTwo x y (carry a b t)).toNat =
        x.toNat + y.toNat + (carry a b t).toNat := by
      cases x <;> cases y <;> cases carry a b t <;> rfl
    have hbit : sumBit a b t = (x ^^ y ^^ carry a b t) := by simp [sumBit, hx, hy]
    rw [List.range_succ, List.map_append, List.map_singleton, number_concat, List.length_map,
      List.length_range, carry_succ hx hy, number_take_succ hx, number_take_succ hy, hbit]
    calc number ((List.range t).map (sumBit a b)) + 2 ^ t * (x ^^ y ^^ carry a b t).toNat +
          2 ^ (t + 1) * (Bool.atLeastTwo x y (carry a b t)).toNat
        = number ((List.range t).map (sumBit a b)) + 2 ^ t *
            ((x ^^ y ^^ carry a b t).toNat + 2 * (Bool.atLeastTwo x y (carry a b t)).toNat) := by
          ring
      _ = number ((List.range t).map (sumBit a b)) + 2 ^ t * (carry a b t).toNat +
            2 ^ t * x.toNat + 2 ^ t * y.toNat := by
          rw [hadd]
          ring
      _ = number (a.take t) + 2 ^ t * x.toNat + (number (b.take t) + 2 ^ t * y.toNat) := by
          rw [ih]
          ring

end numbers

namespace SerialAdder

def xor : Definition :=
  ⟨"xor", ["X", "Y"], .or (.and (.signal "X") (.not (.signal "Y")))
    (.and (.not (.signal "X")) (.signal "Y"))⟩

def maj : Definition :=
  ⟨"maj", ["X", "Y", "Z"], .or (.or (.and (.signal "X") (.signal "Y"))
    (.and (.signal "X") (.signal "Z"))) (.and (.signal "Y") (.signal "Z"))⟩

def functions : Definitions := .ofList [xor, maj]

def updates : List Update := [
  ⟨"S", .call "xor" [.call "xor" [.signal "A", .signal "B"], .signal "C'"]⟩,
  ⟨"C", .call "maj" [.signal "A", .signal "B", .signal "C'"]⟩,
  ⟨"Cout", .signal "C"⟩]

def program (a b : List Bool) : Program where
  name := "serial_adder"
  inputs := ["A", "B"]
  outputs := ["S", "Cout"]
  latches := ["C"]
  definitions := [xor, maj]
  updates := updates
  stimuli := [.ofValues "A" a, .ofValues "B" b]

variable {a b : List Bool}

def circuit (a b : List Bool) (h : a.length = b.length) : Circuit where
  name := "serial_adder"
  inputs := ["A", "B"]
  outputs := ["S", "Cout"]
  latches := ["C"]
  definitions := functions
  updates := updates
  stimuli := [.ofValues "A" a, .ofValues "B" b]
  recorded := [.unset "S" a.length, .unset "Cout" a.length]
  length := a.length
  length_eq := by simp [Trace.ofValues, Trace.length, h]

theorem ofProgram_program (h : a.length = b.length) :
    Circuit.ofProgram (program a b) = .ok (circuit a b h) :=
  Circuit.ofProgram_eq_ok_iff.mpr ⟨rfl, rfl, rfl, rfl, rfl, rfl, rfl,
    by simp [circuit, program, Trace.ofValues, Trace.length], rfl⟩

section cycle

variable {v : Valuation} {w : ℕ → Valuation} {t : ℕ} {e₁ e₂ e₃ : Expr} {x y z : Bool}

theorem apply_xor : ∀ x y, functions.apply xor [x, y] = .ok (x ^^ y) := by decide +kernel

theorem apply_maj : ∀ x y z, functions.apply maj [x, y, z] = .ok (Bool.atLeastTwo x y z) := by
  decide +kernel

theorem eval_xor (h₁ : e₁.eval ⟨functions, v⟩ = .ok x) (h₂ : e₂.eval ⟨functions, v⟩ = .ok y) :
    (Expr.call "xor" [e₁, e₂]).eval ⟨functions, v⟩ = .ok (x ^^ y) := by
  have hd : functions.find? "xor" = some xor := by decide +kernel
  have hv : [e₁, e₂].map (Expr.eval ⟨functions, v⟩) = [x, y].map .ok := by simp [h₁, h₂]
  exact (Expr.eval_call_of_values hd rfl hv).trans (apply_xor x y)

theorem eval_maj (h₁ : e₁.eval ⟨functions, v⟩ = .ok x) (h₂ : e₂.eval ⟨functions, v⟩ = .ok y)
    (h₃ : e₃.eval ⟨functions, v⟩ = .ok z) :
    (Expr.call "maj" [e₁, e₂, e₃]).eval ⟨functions, v⟩ = .ok (Bool.atLeastTwo x y z) := by
  have hd : functions.find? "maj" = some maj := by decide +kernel
  have hv : [e₁, e₂, e₃].map (Expr.eval ⟨functions, v⟩) = [x, y, z].map .ok := by
    simp [h₁, h₂, h₃]
  exact (Expr.eval_call_of_values hd rfl hv).trans (apply_maj x y z)

theorem eval_signal_of_value {n : Name} (h : v[n]? = some x) :
    (Expr.signal n).eval ⟨functions, v⟩ = .ok x := by
  rw [Expr.eval_signal]
  exact Environment.get_eq_ok.mpr h

structure Adds (a b : List Bool) (t : ℕ) (v : Valuation) : Prop where
  sum : v["S"]? = some (sumBit a b t)
  latch : v["C"]? = some (carry a b (t + 1))
  output : v["Cout"]? = some (carry a b (t + 1))

/-- With the right carry at its beginning, a cycle adds one bit. -/
theorem adds_of_latchOutput (ha : a[t]? = some x) (hb : b[t]? = some y) (hA : v["A"]? = a[t]?)
    (hB : v["B"]? = b[t]?) (hC : v["C'"]? = some (carry a b t))
    (hu : ∀ u ∈ updates, v[u.target]? = (u.value.eval ⟨functions, v⟩).toOption) :
    Adds a b t v := by
  have hx := eval_signal_of_value (hA.trans ha)
  have hy := eval_signal_of_value (hB.trans hb)
  have hc := eval_signal_of_value hC
  have hsum : v["S"]? = some (x ^^ y ^^ carry a b t) := by
    have hs := hu ⟨"S", .call "xor" [.call "xor" [.signal "A", .signal "B"], .signal "C'"]⟩
      (by simp [updates])
    rwa [eval_xor (eval_xor hx hy) hc] at hs
  have hlatch : v["C"]? = some (carry a b (t + 1)) := by
    have hm := hu ⟨"C", .call "maj" [.signal "A", .signal "B", .signal "C'"]⟩ (by simp [updates])
    rwa [eval_maj hx hy hc, ← carry_succ ha hb] at hm
  refine ⟨?_, hlatch, ?_⟩
  · simpa [sumBit, ha, hb] using hsum
  · have ho := hu ⟨"Cout", .signal "C"⟩ (by simp [updates])
    rwa [eval_signal_of_value hlatch] at ho

theorem get?_ofValues (n : Name) (values : List Bool) (t : ℕ) :
    (Trace.ofValues n values).get? t = values[t]? := by
  rw [Trace.get?, Trace.ofValues, List.getElem?_map]
  cases values[t]? <;> rfl

theorem stimulusAt_circuit (h : a.length = b.length) (t : ℕ) :
    (circuit a b h).stimulusAt "A" t = a[t]? ∧ (circuit a b h).stimulusAt "B" t = b[t]? :=
  ⟨get?_ofValues "A" a t, get?_ofValues "B" b t⟩

/-- The latch takes the carry from each cycle to the next. -/
theorem adds_of_synchronous (h : a.length = b.length) (hw : (circuit a b h).Synchronous w)
    (ht : t < a.length) : Adds a b t (w t) := by
  have step : ∀ t < a.length, (w t)["C'"]? = some (carry a b t) → Adds a b t (w t) := by
    intro t ht hC
    obtain ⟨hA, hB⟩ := stimulusAt_circuit h t
    exact adds_of_latchOutput (List.getElem?_eq_getElem ht) (List.getElem?_eq_getElem (h ▸ ht))
      ((hw.input t ht "A" (by simp [circuit])).trans hA)
      ((hw.input t ht "B" (by simp [circuit])).trans hB) hC (hw.update t ht)
  induction t with
  | zero =>
    have hC := hw.first ht "C" (by simp [circuit])
    rw [← carry_zero a b] at hC
    exact step 0 ht hC
  | succ t ih =>
    have hC := hw.delay t ht "C" (by simp [circuit])
    exact step (t + 1) ht (hC.trans (ih (by omega)).latch)

end cycle

section simulation

variable {f : Name} {d : Definition}

theorem carried_circuit (h : a.length = b.length) : (circuit a b h).carried = [] := by
  have hc : Circuit.carriedBy ["A", "B", "C'"] updates = [] := by decide
  exact hc

theorem causal_circuit (h : a.length = b.length) : (circuit a b h).Causal where
  inputs := by show ∀ x ∈ ["C'"], x ∉ ["A", "B"]; decide
  targets := by show ∀ x ∈ ["C'"], x ∉ ["S", "C", "Cout"]; decide
  latches := by show ∀ x ∈ ["C'"], x ∉ ["C"]; decide
  targets_nodup := by show ["S", "C", "Cout"].Nodup; decide
  inputs_targets := by show ∀ x ∈ ["A", "B"], x ∉ ["S", "C", "Cout"]; decide
  latches_inputs := by show ∀ x ∈ ["C"], x ∉ ["A", "B"]; decide
  ordered := Circuit.carried_eq_nil_iff.mp (carried_circuit h)

theorem mem_functions (h : functions.find? f = some d) : d = xor ∨ d = maj := by
  rw [functions, Definitions.find?_ofList] at h
  simpa [or_comm] using List.mem_of_find?_eq_some h

theorem notMem_nodes (h : functions.find? f = some d) (g : Name) (n : ℕ) :
    Expr.Node.call g n ∉ d.body.nodes := by
  rcases mem_functions h with rfl | rfl <;> simp [xor, maj]

theorem callable_updates : Callable functions.find? updates where
  updates := by
    intro u hu g n hg
    have hfit : g = "xor" ∧ n = 2 ∨ g = "maj" ∧ n = 3 := by
      simp only [updates, List.mem_cons, List.not_mem_nil, or_false] at hu
      rcases hu with rfl | rfl | rfl <;> simp at hg <;> tauto
    rcases hfit with ⟨rfl, rfl⟩ | ⟨rfl, rfl⟩ <;> decide +kernel
  bodies _ _ _ hd g n hg := (notMem_nodes hd g n hg).elim
  parameters := by
    intro f _ d hd
    rcases mem_functions hd with rfl | rfl <;> decide
  acyclic f _ := not_transGen_calls (fun _ => 0)
    (fun _ g ⟨_, n, hd, hg⟩ => (notMem_nodes hd g n hg).elim) f

theorem supplied_circuit (h : a.length = b.length) (hne : a ≠ []) : (circuit a b h).Supplied where
  driven := by
    intro x hx t ht
    obtain ⟨hA, hB⟩ := stimulusAt_circuit h t
    simp only [circuit, List.mem_cons, List.not_mem_nil, or_false] at hx
    rcases hx with rfl | rfl
    · exact ⟨_, hA.trans (List.getElem?_eq_getElem ht)⟩
    · exact ⟨_, hB.trans (List.getElem?_eq_getElem (h ▸ ht))⟩
  started _ := List.length_pos_iff.mpr hne
  ordered := carried_circuit h
  observed := by show ∀ x ∈ ["S", "Cout"], x ∈ ["A", "B", "C'", "S", "C", "Cout"]; decide
  latched := by show ∀ x ∈ ["C"], x ∈ ["A", "B", "C'", "S", "C", "Cout"]; decide
  callable := callable_updates

def sums (a b : List Bool) : List Bool := (List.range a.length).map (sumBit a b)

def carries (a b : List Bool) : List Bool :=
  (List.range a.length).map fun t => carry a b (t + 1)

theorem simulate_circuit (h : a.length = b.length) (hne : a ≠ []) :
    (circuit a b h).simulate = .done { circuit a b h with
      recorded := [.ofValues "S" (sums a b), .ofValues "Cout" (carries a b)] } := by
  obtain ⟨s, hrun⟩ := Simulation.clocks_ok (supplied_circuit h hne)
    (Simulation.coherent_start (circuit a b h)) _
  have hclocked := Simulation.clocked_of_clocks .start hrun
  have hphase := Simulation.phase_of_clocks .start hrun le_rfl
  have hsync := Simulation.synchronous_stateAt (causal_circuit h) fun _ ht =>
    hclocked.reached hphase ht
  have hsums : Trace.tabulate "S" a.length (fun t =>
      (Simulation.stateAt (circuit a b h) t).environment.values["S"]?) =
        .ofValues "S" (sums a b) :=
    Trace.tabulate_of_values fun _ ht => (adds_of_synchronous h hsync ht).sum
  have hcarries : Trace.tabulate "Cout" a.length (fun t =>
      (Simulation.stateAt (circuit a b h) t).environment.values["Cout"]?) =
        .ofValues "Cout" (carries a b) :=
    Trace.tabulate_of_values fun _ ht => (adds_of_synchronous h hsync ht).output
  refine Circuit.simulate_eq_done_iff.mpr ⟨s, hrun, ?_⟩
  rw [hclocked.outputs_of_done hphase, ← hsums, ← hcarries]
  rfl

end simulation

section parse

def comment : String :=
  "/*\n * Serial adder. A and B are fed least significant bit first,\n" ++
    " * the carry is held in a latch between cycles.\n */"

def text (a b : List Bool) : String := lines [comment,
  ".hardware serial_adder",
  ".inputs A B",
  ".outputs S Cout",
  ".latches C",
  ".def xor(X, Y) = X * /Y + /X * Y",
  ".def maj(X, Y, Z) = X * Y + X * Z + Y * Z",
  ".update",
  "S = xor(xor(A, B), C')",
  "C = maj(A, B, C')",
  "Cout = C",
  ".simulate",
  "A = " ++ (Trace.ofValues "A" a).bits,
  "B = " ++ (Trace.ofValues "B" b).bits]

def vocabulary : List Name :=
  ["serial_adder", "A", "B", "S", "Cout", "C", "C'", "xor", "maj", "X", "Y", "Z"]

theorem mem_names_of_vocabulary : ∀ x ∈ vocabulary, x.toList ∈ names := by
  have hread : ∀ x ∈ vocabulary, (Lexeme.first? x.toList).map (fun l => (l.token, l.text)) =
      some (some (.name x), x.toList) := by decide +kernel
  exact fun x hx => Lexeme.mem_names_of_first? (hread x hx)

theorem listable_updates : ∀ u ∈ updates, u.Listable := by
  have hnames : ∀ u ∈ updates, u.target ∈ vocabulary ∧
      ∀ n ∈ u.value.nodes, ∀ x ∈ n.name?, x ∈ vocabulary := by decide
  intro u hu
  obtain ⟨ht, hvalue⟩ := hnames u hu
  refine ⟨mem_names_of_vocabulary _ ht,
    fun n hn x hx => mem_names_of_vocabulary x (hvalue n hn x hx), ?_⟩
  simp only [updates, List.mem_cons, List.not_mem_nil, or_false] at hu
  rcases hu with rfl | rfl | rfl <;> simp

theorem listable_stimuli (ha : a ≠ []) (hb : b ≠ []) :
    ∀ tr ∈ [Trace.ofValues "A" a, Trace.ofValues "B" b], tr.Listable := by
  simp only [List.mem_cons, List.not_mem_nil, or_false, forall_eq_or_imp, forall_eq]
  exact ⟨⟨Trace.complete_ofValues ha, mem_names_of_vocabulary "A" (by decide)⟩,
    ⟨Trace.complete_ofValues hb, mem_names_of_vocabulary "B" (by decide)⟩⟩

theorem prints_xor :
    Prints ".def xor(X, Y) = X * /Y + /X * Y".toList (Def · xor) := by
  have hX := prints_signal (mem_names_of_vocabulary "X" (by decide))
  have hY := prints_signal (mem_names_of_vocabulary "Y" (by decide))
  have hnX : Prints "/X".toList _ := prints_negation (by decide) (by decide) hX
  have hnY : Prints "/Y".toList _ := prints_negation (by decide) (by decide) hY
  have hleft := prints_product (hX.imp fun _ => .factor) hnY
  have hright := prints_product (hnX.imp fun _ => .factor) hY
  have hbody := prints_sum (hleft.imp fun _ => .product) hright
  exact prints_define (mem_names_of_vocabulary "xor" (by decide))
    (fun x hx => mem_names_of_vocabulary x (by revert x hx; decide)) hbody

theorem prints_maj :
    Prints ".def maj(X, Y, Z) = X * Y + X * Z + Y * Z".toList (Def · maj) := by
  have hX := prints_signal (mem_names_of_vocabulary "X" (by decide))
  have hY := prints_signal (mem_names_of_vocabulary "Y" (by decide))
  have hZ := prints_signal (mem_names_of_vocabulary "Z" (by decide))
  have hXY := prints_product (hX.imp fun _ => .factor) hY
  have hXZ := prints_product (hX.imp fun _ => .factor) hZ
  have hYZ := prints_product (hY.imp fun _ => .factor) hZ
  have hbody := prints_sum (prints_sum (hXY.imp fun _ => .product) hXZ) hYZ
  exact prints_define (mem_names_of_vocabulary "maj" (by decide))
    (fun x hx => mem_names_of_vocabulary x (by revert x hx; decide)) hbody

theorem prints_comment : Prints comment.toList (· = []) := by
  have hclose : closeComment? (comment.toList.drop 2) = some (comment.toList.drop 2, []) := by
    decide +kernel
  have hcomment : comment.toList = '/' :: '*' :: comment.toList.drop 2 := by decide +kernel
  rw [hcomment]
  exact prints_block (mem_commentBodies_of_closeComment? hclose)

theorem prints_word {m : Mark} (hm : m ≠ .negate) : Prints m.spelling.toList (· = [.mark m]) :=
  fun _ _ _ hrest => ⟨_, rfl, reads_mark hm hrest⟩

theorem prints_names {m : Mark} (hm : m ≠ .negate) (xs : List Name) (hx : xs ⊆ vocabulary) :
    Prints (m.spelling ++ xs.foldr (fun x rest => " " ++ x ++ rest) "").toList
      fun ts => ∃ us, Repeated Ident us xs ∧ ts = .mark m :: us := by
  have hgap : ∀ c ∈ " ".toList, Text.isBlank c = true := List.forall_mem_singleton.mpr rfl
  have hspaced : Spaced xs (xs.foldr (fun x rest => " " ++ x ++ rest) "") := by
    induction xs with
    | nil => exact .nil
    | cons x xs ih => exact .cons (by decide) hgap (ih (List.subset_of_cons_subset hx))
  rw [String.toList_append]
  exact prints_mark hm (prints_spaced hspaced fun x hm => mem_names_of_vocabulary x (hx hm))

theorem parse_eq_program (ha : a ≠ []) (hb : b ≠ []) :
    Program.parse (text a b) = .ok (program a b) := by
  have hend : Reads (lines []).toList [] := reads_nil
  -- From the last line to the first.
  obtain ⟨ss, hss, hr⟩ :=
    reads_lines_append (fun tr htr => prints_trace (listable_stimuli ha hb tr htr)) hend
  obtain ⟨_, rfl, hr⟩ := reads_lines_cons (prints_word (m := .simulate) (by decide)) hr
  obtain ⟨us, hus, hr⟩ :=
    reads_lines_append (fun u hu => prints_update (listable_updates u hu)) hr
  obtain ⟨_, rfl, hr⟩ := reads_lines_cons (prints_word (m := .update) (by decide)) hr
  obtain ⟨ms, hms, hr⟩ := reads_lines_cons prints_maj hr
  obtain ⟨xs, hxs, hr⟩ := reads_lines_cons prints_xor hr
  obtain ⟨_, ⟨ls, hls, rfl⟩, hr⟩ :=
    reads_lines_cons (prints_names (m := .latches) (by decide) ["C"] (by decide)) hr
  obtain ⟨_, ⟨os, hos, rfl⟩, hr⟩ :=
    reads_lines_cons (prints_names (m := .outputs) (by decide) ["S", "Cout"] (by decide)) hr
  obtain ⟨_, ⟨is, his, rfl⟩, hr⟩ :=
    reads_lines_cons (prints_names (m := .inputs) (by decide) ["A", "B"] (by decide)) hr
  obtain ⟨_, ⟨ts, hts, rfl⟩, hr⟩ :=
    reads_lines_cons (prints_names (m := .hardware) (by decide) ["serial_adder"] (by decide)) hr
  obtain rfl := repeated_ident_singleton hts
  obtain ⟨_, rfl, hr⟩ := reads_lines_cons prints_comment hr
  have htext : Reads (text a b).toList _ := hr
  obtain ⟨ps, hps, hscan⟩ := htext 0
  refine Program.parse_eq_ok_iff.mpr ⟨ps, Scan.ofText_eq_iff.mp hscan, ?_⟩
  have hd := Description.mk "serial_adder" his hos (.present hls)
    (.cons hxs (.cons hms .nil)) hus hss
  rw [hps]
  simpa [program] using hd

end parse

/-- For two numbers of `n` bits each, the adder is read from its text and runs to the end. The bits
of `S`, and the last one of `Cout` above them, are those of the sum. Each bit of `Cout` is the carry
from the bits up to it. -/
theorem adds_numbers {n : ℕ} (hn : 1 ≤ n) (ha : a.length = n) (hb : b.length = n) :
    ∃ p c c' s k, Program.parse (text a b) = .ok p ∧ Circuit.ofProgram p = .ok c ∧
      c.simulate = .done c' ∧ c'.recorded = [.ofValues "S" s, .ofValues "Cout" k] ∧
      s.length = n ∧ k.length = n ∧
      (∃ last, k.getLast? = some last ∧
        number s + 2 ^ n * last.toNat = number a + number b) ∧
      ∀ t < n, k[t]? = some (carry a b (t + 1)) := by
  have h : a.length = b.length := ha.trans hb.symm
  have hne : a ≠ [] := List.ne_nil_of_length_pos (by omega)
  have hcarries : ∀ t < n, (carries a b)[t]? = some (carry a b (t + 1)) := by
    intro t ht
    rw [carries, List.getElem?_map, List.getElem?_range (ha.symm ▸ ht), Option.map_some]
  have hlength : (carries a b).length = n := by rw [carries, List.length_map, List.length_range, ha]
  refine ⟨program a b, circuit a b h, _, sums a b, carries a b,
    parse_eq_program hne (List.ne_nil_of_length_pos (by omega)), ofProgram_program h,
    simulate_circuit h hne, rfl, ?_, hlength, ⟨carry a b n, ?_, ?_⟩, hcarries⟩
  · rw [sums, List.length_map, List.length_range, ha]
  · rw [List.getLast?_eq_getElem?, hlength, hcarries (n - 1) (by omega), Nat.sub_add_cancel hn]
  · have hsum := number_sumBits h le_rfl
    rwa [List.take_length, h, List.take_length, hb, ← ha, ← sums, ha] at hsum

/-- Adding 11 and 13 gives 8 with a carry of 16. -/
theorem adds_numbers_four : ∃ p c c' s k,
    Program.parse (text [true, true, false, true] [true, false, true, true]) = .ok p ∧
    Circuit.ofProgram p = .ok c ∧ c.simulate = .done c' ∧
    c'.recorded = [.ofValues "S" s, .ofValues "Cout" k] ∧
    number s = 8 ∧ k = [true, true, true, true] := by
  have ha : number [true, true, false, true] = 11 := by decide
  have hb : number [true, false, true, true] = 13 := by decide
  obtain ⟨p, c, c', s, k, hp, hc, hrun, hrecorded, _, hlength, ⟨last, hlast, hsum⟩, hcarries⟩ :=
    adds_numbers (n := 4) (a := [true, true, false, true]) (b := [true, false, true, true])
      (by decide) rfl rfl
  have hk : k = [true, true, true, true] := by
    have hall : ∀ t < 4, carry [true, true, false, true] [true, false, true, true] (t + 1) =
        true := by decide
    refine List.eq_replicate_iff.mpr ⟨hlength, fun x hx => ?_⟩
    obtain ⟨t, ht, rfl⟩ := List.getElem_of_mem hx
    have hcell := hcarries t (hlength ▸ ht)
    rw [List.getElem?_eq_getElem ht, hall t (hlength ▸ ht)] at hcell
    exact Option.some.inj hcell
  subst hk
  obtain rfl : true = last := Option.some.inj hlast
  have hlow : number s = 8 := by
    rw [ha, hb] at hsum
    norm_num at hsum
    omega
  exact ⟨p, c, c', s, _, hp, hc, hrun, hrecorded, hlow, rfl⟩

end SerialAdder

end SyncCircuit
