import SyncCircuit.Proofs.Printing
import SyncCircuit.Proofs.Recording

/-!
Writing a whole description down, one item on a line, and reading it back. Nothing but the first
token of an item tells where the one before it ends, so each item must be read as it was written
whatever comes after it.
-/

namespace SyncCircuit

open SyncCircuit.Expr (Prints endsName_cons prints_commaList prints_name prints_text)
open Grammar (CommaList Def Description Equation Ident Phrase Repeated Stimulus)

def lines (ls : List String) : String := ls.foldr (fun l rest => l ++ "\n" ++ rest) ""

/-- The text of some names, with blanks before each. -/
inductive Spaced : List Name → String → Prop where
  | nil : Spaced [] ""
  | cons {gap x text : String} {xs : List Name} : gap ≠ "" →
      (∀ c ∈ gap.toList, Text.isBlank c = true) → Spaced xs text →
      Spaced (x :: xs) (gap ++ x ++ text)

def Trace.equation (tr : Trace) : String := tr.signal ++ " = " ++ tr.bits

/-- The text of a description, up to the blanks between names. -/
inductive Listing (p : Program) : String → Prop where
  | mk {title inputs outputs latches : String} : Spaced [p.name] title → Spaced p.inputs inputs →
      Spaced p.outputs outputs → Spaced p.latches latches →
      Listing p (lines ([".hardware" ++ title, ".inputs" ++ inputs, ".outputs" ++ outputs,
        ".latches" ++ latches] ++ p.definitions.map Definition.text ++
        ".update" :: p.updates.map Update.text ++ ".simulate" :: p.stimuli.map Trace.equation))

/-- All names are words of the lexical grammar, and no negation is applied directly to another. -/
structure Definition.Listable (d : Definition) : Prop where
  name : d.name.toList ∈ names
  parameters : ∀ x ∈ d.parameters, x.toList ∈ names
  wellNamed : d.body.WellNamed
  not_doubled : ¬ d.body.Doubled

structure Update.Listable (u : Update) : Prop where
  target : u.target.toList ∈ names
  wellNamed : u.value.WellNamed
  not_doubled : ¬ u.value.Doubled

structure Trace.Listable (tr : Trace) : Prop extends tr.Complete where
  signal : tr.signal.toList ∈ names

structure Program.Listable (p : Program) : Prop where
  name : p.name.toList ∈ names
  inputs : ∀ x ∈ p.inputs, x.toList ∈ names
  outputs : ∀ x ∈ p.outputs, x.toList ∈ names
  latches : ∀ x ∈ p.latches, x.toList ∈ names
  definitions : ∀ d ∈ p.definitions, d.Listable
  updates : ∀ u ∈ p.updates, u.Listable
  stimuli : ∀ tr ∈ p.stimuli, tr.Listable

section reads

variable {c : Char} {gap cs rest : List Char} {us : List Token} {P : List Token → Prop}
variable {m : Mark}

theorem isBlank_of_isDigit (h : c.isDigit = true) : Text.isBlank c = false := by
  simp only [Char.isDigit, Bool.and_eq_true, decide_eq_true_eq] at h
  have hlo : 48 ≤ c.toNat := UInt32.le_iff_toNat_le.mp h.1
  have hhi : c.toNat ≤ 57 := UInt32.le_iff_toNat_le.mp h.2
  simp only [Text.isBlank, Text.blankRanges, List.any_cons, List.any_nil, Bool.or_false,
    Bool.or_eq_false_iff, Bool.and_eq_false_iff, decide_eq_false_iff_not]
  omega

theorem endsName_of_isBlank (h : Text.isBlank c = true) : EndsName (c :: rest) := by
  apply endsName_cons
  · rw [Bool.eq_false_iff]
    intro hpart
    by_cases hstart : isNameStart c = true
    · rw [isBlank_of_isNameStart hstart] at h
      cases h
    · have hdigit : c.isDigit = true := by
        simp only [isNameStart, Bool.or_eq_true, not_or] at hstart
        simp only [isNamePart, Char.isAlphanum, Bool.or_eq_true] at hpart
        tauto
      rw [isBlank_of_isDigit hdigit] at h
      cases h
  · rintro rfl
    cases h

theorem reads_gap (hg : ∀ c ∈ gap, Text.isBlank c = true) (hr : Reads rest us) :
    Reads (gap ++ rest) us := by
  induction gap with
  | nil => exact hr
  | cons c gap ih =>
    obtain ⟨hc, hg⟩ := List.forall_mem_cons.mp hg
    exact reads_blank hc (ih hg)

theorem endsName_gap (hg : ∀ c ∈ gap, Text.isBlank c = true) (hne : gap ≠ []) :
    EndsName (gap ++ rest) := by
  obtain ⟨c, gap, rfl⟩ := List.exists_cons_of_ne_nil hne
  exact endsName_of_isBlank (hg c List.mem_cons_self)

theorem prints_spaced {xs : List Name} {text : String} (h : Spaced xs text)
    (hx : ∀ x ∈ xs, x.toList ∈ names) : Prints text.toList (Repeated Ident · xs) := by
  have aux : ∀ rest us, EndsName rest → Reads rest us → EndsName (text.toList ++ rest) ∧
      ∃ ts, Repeated Ident ts xs ∧ Reads (text.toList ++ rest) (ts ++ us) := by
    intro rest us he hrest
    induction h with
    | nil => exact ⟨he, [], .nil, hrest⟩
    | @cons gap x text xs hne hg _ ih =>
      obtain ⟨hname, hx⟩ := List.forall_mem_cons.mp hx
      obtain ⟨hends, ts, ht, hr⟩ := ih hx
      have hident : Ident [.name x] x := rfl
      have hne : gap.toList ≠ [] := by simpa using hne
      rw [String.toList_append, String.toList_append, List.append_assoc, List.append_assoc]
      exact ⟨endsName_gap hg hne, _, .cons hident ht, reads_gap hg (reads_name hname hends hr)⟩
  exact fun rest us he hrest => (aux rest us he hrest).2

theorem prints_mark (hm : m ≠ .negate) (h : Prints cs P) :
    Prints (m.spelling.toList ++ cs) fun ts => ∃ us, P us ∧ ts = .mark m :: us := by
  intro rest us he hrest
  obtain ⟨ts, ht, hr⟩ := h rest us he hrest
  rw [List.append_assoc]
  exact ⟨_, ⟨ts, ht, rfl⟩, reads_mark hm hr⟩

theorem prints_equation {x : Name} (hx : x.toList ∈ names) (h : Prints cs P) :
    Prints (x.toList ++ ' ' :: '=' :: ' ' :: cs)
      fun ts => ∃ us, P us ∧ ts = .name x :: .mark .equals :: us := by
  intro rest us he hrest
  obtain ⟨ts, ht, hr⟩ := h rest us he hrest
  have hequals := Expr.reads_spaced (m := .equals) (by decide) hr
  have hname := reads_name hx (endsName_cons rfl (by decide)) hequals
  refine ⟨_, ⟨ts, ht, rfl⟩, ?_⟩
  simpa [Mark.spelling] using hname

theorem first?_bits {values : List Bool} (hne : values ≠ []) (he : EndsName rest) :
    Lexeme.first? (values.map digit ++ rest) =
      some ⟨some (.bits values), values.map digit, rest⟩ := by
  obtain ⟨b, bs, rfl⟩ := List.exists_cons_of_ne_nil hne
  have hbit : ∀ b, isBit (digit b) = true := by decide
  have hall : ∀ c ∈ (b :: bs).map digit, isBit c = true :=
    List.forall_mem_map.mpr fun b _ => hbit b
  have hstop : rest.takeWhile isBit = [] ∧ rest.dropWhile isBit = rest := by
    cases rest with
    | nil => exact ⟨rfl, rfl⟩
    | cons c rest =>
      have hc : isBit c = false := by
        rw [Bool.eq_false_iff]
        intro hc
        have hpart := (he c rfl).1
        rcases isBit_iff.mp hc with rfl | rfl <;> cases hpart
      simp [hc]
  have hvalues : ((b :: bs).map digit).map (· == '1') = b :: bs := by
    have hdigit : ∀ b, (digit b == '1') = b := by decide
    simp [Function.comp_def, hdigit]
  have hfirst := Lexeme.first?_of_isBit (hbit b) (bs.map digit ++ rest)
  rw [← List.cons_append, ← List.map_cons, Lexeme.ofBits, List.takeWhile_append_of_pos hall,
    List.dropWhile_append_of_pos hall, hstop.1, hstop.2, List.append_nil, hvalues] at hfirst
  exact hfirst

theorem prints_bits {values : List Bool} (hne : values ≠ []) :
    Prints (values.map digit) fun ts => ts = [.bits values] :=
  fun _ _ he hrest => ⟨_, rfl, reads_of_first? (first?_bits hne he) hrest⟩

end reads

section items

variable {cs rest : List Char} {us : List Token} {P : List Token → Prop}

theorem prints_define {f : Name} {xs : List Name} {e : Expr} (hf : f.toList ∈ names)
    (hx : ∀ x ∈ xs, x.toList ∈ names) (he : Prints cs (Phrase .sum · e)) :
    Prints ((".def " ++ f ++ "(" ++ Text.joined ", " xs ++ ") = ").toList ++ cs)
      (Def · ⟨f, xs, e⟩) := by
  intro rest us hends hrest
  obtain ⟨vs, hv, hbody⟩ := he rest us hends hrest
  have hequals := Expr.reads_spaced (m := .equals) (by decide) hbody
  have hclose : Reads (')' :: _) (.mark .closeParen :: _) :=
    reads_mark (m := .closeParen) (by decide) hequals
  obtain ⟨ts, ht, hparameters⟩ := prints_commaList (fun x hm => prints_name (hx x hm)) _ _
    (endsName_cons rfl (by decide)) hclose
  have hopen : Reads ('(' :: _) (.mark .openParen :: _) :=
    reads_mark (m := .openParen) (by decide) hparameters
  have hname := reads_name hf (endsName_cons rfl (by decide)) hopen
  have hdefine := reads_mark (m := .define) (by decide) (reads_blank (c := ' ') rfl hname)
  refine ⟨_, .mk f ht hv, ?_⟩
  simpa [Mark.spelling, String.toList_append] using hdefine

theorem prints_definition {d : Definition} (h : d.Listable) : Prints d.text.toList (Def · d) := by
  have hbody : Prints d.body.text.toList (Phrase .sum · d.body) :=
    (prints_text h.wellNamed h.not_doubled).imp fun _ ht => .product (.factor ht)
  rw [Definition.text, String.toList_append]
  exact prints_define h.name h.parameters hbody

theorem prints_update {u : Update} (h : u.Listable) : Prints u.text.toList (Equation · u) := by
  have htext : u.text.toList = u.target.toList ++ ' ' :: '=' :: ' ' :: u.value.text.toList := by
    simp [Update.text, String.toList_append]
  rw [htext]
  apply (prints_equation h.target (prints_text h.wellNamed h.not_doubled)).imp
  rintro _ ⟨ts, ht, rfl⟩
  exact .mk u.target (.product (.factor ht))

theorem prints_trace {tr : Trace} (h : tr.Listable) :
    Prints tr.equation.toList (Stimulus · tr) := by
  obtain ⟨values, hne, htr⟩ :
      ∃ values : List Bool, values ≠ [] ∧ tr = .ofValues tr.signal values :=
    ⟨_, by simpa using h.cells, Trace.eq_ofValues h.set⟩
  have htext : tr.equation.toList = tr.signal.toList ++ ' ' :: '=' :: ' ' :: values.map digit := by
    have hbits : tr.bits.toList = values.map digit := by
      rw [htr, Trace.toList_bits_ofValues]
    simp [Trace.equation, String.toList_append, hbits]
  rw [htext]
  apply (prints_equation h.signal (prints_bits hne)).imp
  rintro _ ⟨_, rfl, rfl⟩
  rw [htr]
  exact .mk tr.signal values (Trace.ofBits_text tr.signal values)

theorem toList_lines_cons (a : String) (as : List String) :
    (lines (a :: as)).toList = a.toList ++ '\n' :: (lines as).toList := by
  simp [lines, String.toList_append]

theorem toList_lines_append (as bs : List String) :
    (lines (as ++ bs)).toList = (lines as).toList ++ (lines bs).toList := by
  induction as with
  | nil => rfl
  | cons a as ih =>
    rw [List.cons_append, toList_lines_cons, toList_lines_cons, ih, List.append_assoc,
      List.cons_append]

theorem reads_line (h : Prints cs P) (hr : Reads rest us) :
    ∃ ts, P ts ∧ Reads (cs ++ '\n' :: rest) (ts ++ us) :=
  h _ _ (endsName_cons rfl (by decide)) (reads_blank rfl hr)

theorem reads_lines_cons {l : String} {ls : List String} (h : Prints l.toList P)
    (hr : Reads (lines ls).toList us) :
    ∃ ts, P ts ∧ Reads (lines (l :: ls)).toList (ts ++ us) := by
  rw [toList_lines_cons]
  exact reads_line h hr

theorem reads_lines {α : Type} {text : α → String} {D : List Token → α → Prop} {as : List α}
    (h : ∀ a ∈ as, Prints (text a).toList (D · a)) (hr : Reads rest us) :
    ∃ ts, Repeated D ts as ∧ Reads ((lines (as.map text)).toList ++ rest) (ts ++ us) := by
  induction as with
  | nil => exact ⟨[], .nil, hr⟩
  | cons a as ih =>
    obtain ⟨ha, has⟩ := List.forall_mem_cons.mp h
    obtain ⟨vs, hv, hr⟩ := ih has
    obtain ⟨ts, ht, hr⟩ := reads_line ha hr
    refine ⟨ts ++ vs, .cons ht hv, ?_⟩
    rw [List.map_cons, toList_lines_cons]
    simpa using hr

theorem reads_lines_append {α : Type} {text : α → String} {D : List Token → α → Prop}
    {as : List α} {ls : List String} (h : ∀ a ∈ as, Prints (text a).toList (D · a))
    (hr : Reads (lines ls).toList us) :
    ∃ ts, Repeated D ts as ∧ Reads (lines (as.map text ++ ls)).toList (ts ++ us) := by
  rw [toList_lines_append]
  exact reads_lines h hr

theorem repeated_ident_singleton {ts : List Token} {x : Name} (h : Repeated Ident ts [x]) :
    ts = [.name x] := by
  cases h with
  | cons hx hnil =>
    cases hnil
    rw [hx]
    rfl

theorem reads_names {m : Mark} (hm : m ≠ .negate) {xs : List Name} {text : String}
    (h : Spaced xs text) (hx : ∀ x ∈ xs, x.toList ∈ names) (hr : Reads rest us) :
    ∃ ts, Repeated Ident ts xs ∧
      Reads ((m.spelling ++ text).toList ++ '\n' :: rest) (.mark m :: (ts ++ us)) := by
  obtain ⟨_, ⟨ts, ht, rfl⟩, hr⟩ := reads_line (prints_mark hm (prints_spaced h hx)) hr
  rw [String.toList_append]
  exact ⟨ts, ht, hr⟩

end items

namespace Program

/-- A description is read back from its text. -/
theorem parse_listing {p : Program} (hp : p.Listable) {text : String} (h : Listing p text) :
    parse text = .ok p := by
  obtain ⟨htitle, hinputs, houtputs, hlatches⟩ := h
  -- From the last line to the first.
  obtain ⟨ss, hss, hr⟩ := reads_lines (fun tr htr => prints_trace (hp.stimuli tr htr)) reads_nil
  have hr := reads_mark (m := .simulate) (by decide) (reads_blank (c := '\n') rfl hr)
  obtain ⟨us, hus, hr⟩ := reads_lines (fun u hu => prints_update (hp.updates u hu)) hr
  have hr := reads_mark (m := .update) (by decide) (reads_blank (c := '\n') rfl hr)
  obtain ⟨ds, hds, hr⟩ := reads_lines (fun d hd => prints_definition (hp.definitions d hd)) hr
  obtain ⟨ls, hls, hr⟩ := reads_names (m := .latches) (by decide) hlatches hp.latches hr
  obtain ⟨os, hos, hr⟩ := reads_names (m := .outputs) (by decide) houtputs hp.outputs hr
  obtain ⟨is, his, hr⟩ := reads_names (m := .inputs) (by decide) hinputs hp.inputs hr
  obtain ⟨ts, hts, hr⟩ :=
    reads_names (m := .hardware) (by decide) htitle (List.forall_mem_singleton.mpr hp.name) hr
  obtain rfl := repeated_ident_singleton hts
  obtain ⟨ps, hps, hscan⟩ := hr 0
  refine parse_eq_ok_iff.mpr ⟨ps, Scan.ofText_eq_iff.mp ?_, ?_⟩
  · rw [← hscan, Scan.ofText]
    simp [toList_lines_cons, toList_lines_append, Mark.spelling]
  · have hd := Description.mk p.name his hos (.present hls) hds hus hss
    rw [hps]
    simpa using hd

/-- A definition ends where the next one begins, and an equation at the name of the next one. -/
def gated : Program where
  name := "g"
  inputs := ["A", "B"]
  outputs := ["Q"]
  latches := ["Q"]
  definitions := [⟨"n", ["X", "Y"], .not (.and (.signal "X") (.signal "Y"))⟩,
    ⟨"o", [], .or (.call "n" [.signal "Z", .signal "Z"]) (.signal "Z")⟩]
  updates := [⟨"D", .call "n" [.signal "A", .not (.signal "Q'")]⟩, ⟨"Q", .signal "D"⟩]
  stimuli := [.ofValues "A" [true, false], .ofValues "B" [false, true]]

def gatedNames : List Name := ["g", "A", "B", "Q", "Q'", "D", "n", "o", "X", "Y", "Z"]

theorem mem_names_of_gatedNames : ∀ x ∈ gatedNames, x.toList ∈ names := by
  have hread : ∀ x ∈ gatedNames, (Lexeme.first? x.toList).map (fun l => (l.token, l.text)) =
      some (some (.name x), x.toList) := by decide
  exact fun x hx => Lexeme.mem_names_of_first? (hread x hx)

theorem listable_gated : gated.Listable := by
  have hname := mem_names_of_gatedNames
  have hdefinitions : ∀ d ∈ gated.definitions, d.name ∈ gatedNames ∧
      (∀ x ∈ d.parameters, x ∈ gatedNames) ∧
      ∀ n ∈ d.body.nodes, ∀ x ∈ n.name?, x ∈ gatedNames := by decide
  have hupdates : ∀ u ∈ gated.updates, u.target ∈ gatedNames ∧
      ∀ n ∈ u.value.nodes, ∀ x ∈ n.name?, x ∈ gatedNames := by decide
  have hstimuli : ∀ tr ∈ gated.stimuli, tr.signal ∈ gatedNames ∧ tr.cells ≠ [] ∧
      ∀ cell ∈ tr.cells, cell.isSome := by decide
  have hdeclared : ∀ x ∈ gated.name :: (gated.inputs ++ gated.outputs ++ gated.latches),
      x ∈ gatedNames := by decide
  constructor
  · exact hname _ (hdeclared _ (by simp))
  · exact fun x hx => hname x (hdeclared x (by simp [hx]))
  · exact fun x hx => hname x (hdeclared x (by simp [hx]))
  · exact fun x hx => hname x (hdeclared x (by simp [hx]))
  · intro d hd
    obtain ⟨hf, hxs, hbody⟩ := hdefinitions d hd
    refine ⟨hname _ hf, fun x hx => hname x (hxs x hx), fun n hn x hx => ?_, ?_⟩
    · exact hname x (hbody n hn x hx)
    · simp only [gated, List.mem_cons, List.not_mem_nil, or_false] at hd
      rcases hd with rfl | rfl <;> simp
  · intro u hu
    obtain ⟨ht, hvalue⟩ := hupdates u hu
    refine ⟨hname _ ht, fun n hn x hx => ?_, ?_⟩
    · exact hname x (hvalue n hn x hx)
    · simp only [gated, List.mem_cons, List.not_mem_nil, or_false] at hu
      rcases hu with rfl | rfl <;> simp
  · intro tr htr
    obtain ⟨hx, hne, hset⟩ := hstimuli tr htr
    exact ⟨⟨hne, hset⟩, hname _ hx⟩

theorem parse_listing_gated : gated.Listable ∧ ∃ text, Listing gated text ∧
    text = ".hardware g\n.inputs A\t B\n.outputs Q\n.latches  Q\n" ++
      ".def n(X, Y) = /(X * Y)\n.def o() = (n(Z, Z) + Z)\n" ++
      ".update\nD = n(A, /Q')\nQ = D\n.simulate\nA = 10\nB = 01\n" ∧
    parse text = .ok gated := by
  have one : ∀ (gap : String) (x : Name), gap ≠ "" → gap.toList.all Text.isBlank = true →
      Spaced [x] (gap ++ x ++ "") :=
    fun _ _ hne hg => .cons hne (List.all_eq_true.mp hg) .nil
  have hQ : Spaced ["Q"] " Q" := one " " "Q" (by decide) (by decide)
  have hL : Spaced ["Q"] "  Q" := one "  " "Q" (by decide) (by decide)
  have hg : Spaced ["g"] " g" := one " " "g" (by decide) (by decide)
  have hAB : Spaced ["A", "B"] (" " ++ "A" ++ "\t B") :=
    .cons (by decide) (List.all_eq_true.mp (by decide)) (one "\t " "B" (by decide) (by decide))
  have h : Listing gated _ := .mk hg hAB hQ hL
  exact ⟨listable_gated, _, h, by decide, parse_listing listable_gated h⟩

end Program

end SyncCircuit
