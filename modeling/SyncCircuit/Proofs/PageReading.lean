import SyncCircuit.Proofs.Pieces
import SyncCircuit.Proofs.Vocabulary
import SyncCircuit.Report.Page

/-!
A description can be read back from its page. Names are set as they are, but none of the characters
that follow them there can occur in a name. A formula ends where its parentheses close, and no line
of a section is the heading of the next one.
-/

namespace SyncCircuit

open Text (joined)

section names

variable {x y : Name} {xs ys : List Name} {c d : Char} {r s : List Char}

def OutsideNames (c : Char) : Prop := isNamePart c = false ∧ c ≠ '\''

instance (c : Char) : Decidable (OutsideNames c) := inferInstanceAs (Decidable (_ ∧ _))

theorem not_outsideNames (hx : x.toList ∈ names) : ∀ c ∈ x.toList, ¬ OutsideNames c := by
  rintro c hc ⟨hpart, hquote⟩
  rcases mem_of_mem_names hx hc with h | h
  · rw [hpart] at h
    cases h
  · exact hquote h

theorem name_inj (hx : x.toList ∈ names) (hy : y.toList ∈ names) (hc : OutsideNames c)
    (hd : OutsideNames d) (h : x.toList ++ c :: r = y.toList ++ d :: s) :
    x = y ∧ c = d ∧ r = s := by
  obtain ⟨hxy, hrest⟩ :=
    append_cons_inj (not_outsideNames hx) (not_outsideNames hy) hc hd h
  exact ⟨String.toList_injective hxy, hrest⟩

theorem EndsArgument.outsideNames (h : EndsArgument c) : OutsideNames c := by
  rcases h with rfl | rfl <;> decide

theorem begins_name (hx : x.toList ∈ names) : Begins x := by
  cases hcs : x.toList with
  | nil =>
    rw [hcs] at hx
    exact absurd hx nil_notMem_oneOf_mul
  | cons c cs =>
    refine ⟨c, cs, hcs, ?_⟩
    rintro rfl
    exact not_outsideNames hx ')' (by simp [hcs]) (by decide)

theorem parameters_inj (hx : ∀ x ∈ xs, x.toList ∈ names) (hy : ∀ y ∈ ys, y.toList ∈ names)
    (h : (joined "," xs).toList ++ ')' :: r = (joined "," ys).toList ++ ')' :: s) :
    xs = ys ∧ r = s := by
  rw [← List.map_id xs, ← List.map_id ys] at h
  refine joined_inj (fun x hxs y hys => ?_) (fun x hxs => begins_name (hx x hxs))
    (fun y hys => begins_name (hy y hys)) h
  exact fun c d r s hc hd =>
    name_inj (hx x hxs) (hy y hys) hc.outsideNames hd.outsideNames

end names

namespace Expr

variable {d e a a' b b' : Expr} {x f : Name} {r s : List Char}

section chars

variable (x f : Name) (a b : Expr) (as : List Expr) (r : List Char)

theorem chars_signal :
    (signal x).formula.toList ++ r = "\\mathrm\x7b".toList ++ (x.toList ++ '}' :: r) := by
  simp [braced]

theorem chars_and : (and a b).formula.toList ++ r =
    '(' :: (a.formula.toList ++ ("\\wedge ".toList ++ (b.formula.toList ++ ')' :: r))) := by
  simp

theorem chars_or : (or a b).formula.toList ++ r =
    '(' :: (a.formula.toList ++ ("\\vee ".toList ++ (b.formula.toList ++ ')' :: r))) := by
  simp

theorem chars_not :
    (not a).formula.toList ++ r = "\\neg(".toList ++ (a.formula.toList ++ ')' :: r) := by
  simp

theorem chars_call : (call f as).formula.toList ++ r = "\\mathit\x7b".toList ++
    (f.toList ++ '}' :: '(' :: ((joined "," (as.map formula)).toList ++ ')' :: r)) := by
  simp [braced]

end chars

theorem begins_formula (e : Expr) : Begins e.formula := by
  cases e <;> simp [Begins, braced]

/-- The formula is told from that of every other expression, whatever comes after the two. -/
def Readable (d : Expr) : Prop :=
  ∀ e r s, e.WellNamed → d.formula.toList ++ r = e.formula.toList ++ s → d = e ∧ r = s

theorem Readable.toldApart (h : d.Readable) (he : e.WellNamed) : ToldApart formula d e := by
  intro c c' r s _ _ heq
  obtain ⟨rfl, hrest⟩ := h e _ _ he heq
  exact ⟨rfl, List.cons.inj hrest⟩

theorem operands_inj {command : List Char} (ha : a.Readable) (hb : b.Readable)
    (ha' : a'.WellNamed) (hb' : b'.WellNamed)
    (h : a.formula.toList ++ (command ++ (b.formula.toList ++ ')' :: r)) =
      a'.formula.toList ++ (command ++ (b'.formula.toList ++ ')' :: s))) :
    a = a' ∧ b = b' ∧ r = s := by
  obtain ⟨rfl, hcommand⟩ := ha a' _ _ ha' h
  obtain ⟨rfl, hclose⟩ := hb b' _ _ hb' (List.append_cancel_left hcommand)
  exact ⟨rfl, rfl, (List.cons.inj hclose).2⟩

theorem readable_signal (hx : x.toList ∈ names) : (signal x).Readable := by
  intro e r s he h
  cases e with
  | signal y =>
    rw [chars_signal, chars_signal] at h
    obtain ⟨rfl, -, hrest⟩ := name_inj hx (wellNamed_signal.mp he) (by decide) (by decide)
      (List.append_cancel_left h)
    exact ⟨rfl, hrest⟩
  | _ => simp at h

theorem readable_and (ha : a.Readable) (hb : b.Readable) : (and a b).Readable := by
  intro e r s he h
  cases e with
  | and a' b' =>
    obtain ⟨ha', hb'⟩ := wellNamed_and.mp he
    rw [chars_and, chars_and] at h
    obtain ⟨rfl, rfl, hrest⟩ := operands_inj ha hb ha' hb' (List.cons.inj h).2
    exact ⟨rfl, hrest⟩
  | or a' b' =>
    -- Only what stands after the first operand tells a product from a sum.
    rw [chars_and, chars_or] at h
    obtain ⟨-, hcommand⟩ := ha a' _ _ (wellNamed_or.mp he).1 (List.cons.inj h).2
    simp at hcommand
  | _ => simp at h

theorem readable_or (ha : a.Readable) (hb : b.Readable) : (or a b).Readable := by
  intro e r s he h
  cases e with
  | or a' b' =>
    obtain ⟨ha', hb'⟩ := wellNamed_or.mp he
    rw [chars_or, chars_or] at h
    obtain ⟨rfl, rfl, hrest⟩ := operands_inj ha hb ha' hb' (List.cons.inj h).2
    exact ⟨rfl, hrest⟩
  | and a' b' =>
    rw [chars_or, chars_and] at h
    obtain ⟨-, hcommand⟩ := ha a' _ _ (wellNamed_and.mp he).1 (List.cons.inj h).2
    simp at hcommand
  | _ => simp at h

theorem readable_not (ha : a.Readable) : (not a).Readable := by
  intro e r s he h
  cases e with
  | not a' =>
    rw [chars_not, chars_not] at h
    obtain ⟨rfl, hclose⟩ := ha a' _ _ (wellNamed_not.mp he) (List.append_cancel_left h)
    exact ⟨rfl, (List.cons.inj hclose).2⟩
  | _ => simp at h

theorem readable_call {as : List Expr} (hf : f.toList ∈ names) (has : ∀ a ∈ as, a.Readable) :
    (call f as).Readable := by
  intro e r s he h
  cases e with
  | call f' as' =>
    obtain ⟨hf', has'⟩ := wellNamed_call.mp he
    rw [chars_call, chars_call] at h
    obtain ⟨rfl, -, hopen⟩ := name_inj hf hf' (by decide) (by decide) (List.append_cancel_left h)
    obtain ⟨rfl, hrest⟩ := joined_inj (fun a ha a' ha' => (has a ha).toldApart (has' a' ha'))
      (fun a _ => begins_formula a) (fun a _ => begins_formula a) (List.cons.inj hopen).2
    exact ⟨rfl, hrest⟩
  | _ => simp at h

theorem readable (h : d.WellNamed) : d.Readable := by
  induction d using Expr.induct with
  | signal x => exact readable_signal (wellNamed_signal.mp h)
  | and a b iha ihb =>
    obtain ⟨ha, hb⟩ := wellNamed_and.mp h
    exact readable_and (iha ha) (ihb hb)
  | or a b iha ihb =>
    obtain ⟨ha, hb⟩ := wellNamed_or.mp h
    exact readable_or (iha ha) (ihb hb)
  | not a ih => exact readable_not (ih (wellNamed_not.mp h))
  | call f as ih =>
    obtain ⟨hf, has⟩ := wellNamed_call.mp h
    exact readable_call hf fun a ha => ih a ha (has a ha)

theorem oneLine_braced {x : Name} (hx : x.toList ∈ names) : OneLine (braced x).toList := by
  simp only [braced, String.toList_append, oneLine_append]
  exact ⟨⟨by decide, oneLine_name hx⟩, by decide⟩

theorem oneLine_formula (h : e.WellNamed) : OneLine e.formula.toList := by
  induction e using Expr.induct with
  | signal x =>
    rw [formula_signal, String.toList_append, oneLine_append]
    exact ⟨by decide, oneLine_braced (wellNamed_signal.mp h)⟩
  | and a b iha ihb =>
    obtain ⟨ha, hb⟩ := wellNamed_and.mp h
    simp only [formula_and, String.toList_append, oneLine_append]
    exact ⟨⟨⟨⟨by decide, iha ha⟩, by decide⟩, ihb hb⟩, by decide⟩
  | or a b iha ihb =>
    obtain ⟨ha, hb⟩ := wellNamed_or.mp h
    simp only [formula_or, String.toList_append, oneLine_append]
    exact ⟨⟨⟨⟨by decide, iha ha⟩, by decide⟩, ihb hb⟩, by decide⟩
  | not a ih =>
    simp only [formula_not, String.toList_append, oneLine_append]
    exact ⟨⟨by decide, ih (wellNamed_not.mp h)⟩, by decide⟩
  | call f as ih =>
    obtain ⟨hf, has⟩ := wellNamed_call.mp h
    simp only [formula_call, String.toList_append, oneLine_append]
    exact ⟨⟨⟨⟨by decide, oneLine_braced hf⟩, by decide⟩,
      oneLine_joined (by decide) (List.forall_mem_map.mpr fun a ha => ih a ha (has a ha))⟩,
      by decide⟩

end Expr

namespace Page

variable {p q : Program} {d d' : Definition} {u u' : Update} {t t' : Trace} {xs ys : List Name}

section lines

theorem oneLine_names (hx : ∀ x ∈ xs, x.toList ∈ SyncCircuit.names) :
    OneLine (names xs).toList := by
  induction xs with
  | nil => exact List.forall_mem_nil _
  | cons x xs ih =>
    obtain ⟨hx, hxs⟩ := List.forall_mem_cons.mp hx
    simp only [names, List.foldr_cons, String.toList_append, oneLine_append]
    exact ⟨⟨oneLine_name hx, by decide⟩, ih hxs⟩

theorem oneLine_definition (h : d.WellNamed) : OneLine (definition d).toList := by
  simp only [definition, String.toList_append, oneLine_append]
  exact ⟨⟨⟨⟨⟨⟨by decide, Expr.oneLine_braced h.name⟩, by decide⟩,
    oneLine_joined (by decide) fun x hx => oneLine_name (h.parameters x hx)⟩, by decide⟩,
    Expr.oneLine_formula h.body⟩, by decide⟩

theorem oneLine_update (h : u.WellNamed) : OneLine (update u).toList := by
  simp only [update, String.toList_append, oneLine_append]
  exact ⟨⟨⟨oneLine_name h.target, by decide⟩, Expr.oneLine_formula h.value⟩, by decide⟩

theorem oneLine_stimulus (h : t.signal.toList ∈ SyncCircuit.names) :
    OneLine (stimulus t).toList := by
  have hbits : OneLine t.bits.toList := by
    intro c hc
    rcases Trace.mem_bits hc with rfl | rfl | rfl <;> rfl
  simp only [stimulus, String.toList_append, oneLine_append]
  exact ⟨⟨⟨⟨by decide, oneLine_name h⟩, by decide⟩, hbits⟩, by decide⟩

theorem oneLine_opening {x : Name} (hx : x.toList ∈ SyncCircuit.names) :
    ∀ line ∈ opening x, OneLine line.toList := by
  have hname := oneLine_name hx
  simp only [opening, List.forall_mem_cons, String.toList_append, oneLine_append]
  exact ⟨by decide, ⟨⟨by decide, hname⟩, by decide⟩, by decide, ⟨by decide, by decide⟩, by decide,
    ⟨⟨by decide, hname⟩, by decide⟩, List.forall_mem_nil _⟩

theorem lines_eq (p : Program) : lines p = opening p.name ++
    ("<h2> Inputs </h2>" :: names p.inputs :: "<h2> Outputs </h2>" :: names p.outputs ::
      "<h2> Latches </h2>" :: names p.latches :: "<h2> Definitions </h2>" ::
        (p.definitions.map definition ++ "<h2> Updates </h2>" ::
          (p.updates.map update ++ "<h2> Simulation inputs </h2>" ::
            (p.stimuli.map stimulus ++ ["</body></html>"])))) := by
  simp [lines, sections]

theorem oneLine_lines (h : p.WellNamed) : ∀ line ∈ lines p, OneLine line.toList := by
  simp only [lines_eq, List.forall_mem_append, List.forall_mem_cons, List.forall_mem_map]
  exact ⟨oneLine_opening h.name, by decide, oneLine_names h.inputs, by decide,
    oneLine_names h.outputs, by decide, oneLine_names h.latches, by decide,
    fun d hd => oneLine_definition (h.definitions d hd), by decide,
    fun u hu => oneLine_update (h.updates u hu), by decide,
    fun t ht => oneLine_stimulus (h.stimuli t ht), by decide, List.forall_mem_nil _⟩

end lines

section inversion

theorem names_inj (hx : ∀ x ∈ xs, x.toList ∈ SyncCircuit.names)
    (hy : ∀ y ∈ ys, y.toList ∈ SyncCircuit.names) (h : names xs = names ys) : xs = ys :=
  terminated_inj (by simp : " ".toList = [' '])
    (fun x hxs hc => not_outsideNames (hx x hxs) ' ' hc (by decide))
    (fun y hys hc => not_outsideNames (hy y hys) ' ' hc (by decide)) h

theorem chars_definition (d : Definition) : (definition d).toList =
    "\\(\\mathit\x7b".toList ++ (d.name.toList ++ '}' :: '(' ::
      ((joined "," d.parameters).toList ++ ')' ::
        (" = ".toList ++ (d.body.formula.toList ++ "\\)<br>".toList)))) := by
  simp [definition, braced]

theorem definition_inj (hd : d.WellNamed) (hd' : d'.WellNamed)
    (h : definition d = definition d') : d = d' := by
  obtain ⟨f, xs, e⟩ := d
  obtain ⟨f', xs', e'⟩ := d'
  have hchars := congrArg String.toList h
  rw [chars_definition, chars_definition] at hchars
  obtain ⟨rfl, -, hopen⟩ := name_inj hd.name hd'.name (by decide) (by decide)
    (List.append_cancel_left hchars)
  obtain ⟨rfl, hequals⟩ := parameters_inj hd.parameters hd'.parameters (List.cons.inj hopen).2
  obtain ⟨rfl, -⟩ := Expr.readable hd.body _ _ _ hd'.body (List.append_cancel_left hequals)
  rfl

theorem chars_update (u : Update) : (update u).toList = u.target.toList ++
    '&' :: ("larr;\\(".toList ++ (u.value.formula.toList ++ "\\)<br>".toList)) := by
  simp [update]

theorem update_inj (hu : u.WellNamed) (hu' : u'.WellNamed) (h : update u = update u') : u = u' := by
  obtain ⟨x, e⟩ := u
  obtain ⟨x', e'⟩ := u'
  have hchars := congrArg String.toList h
  rw [chars_update, chars_update] at hchars
  obtain ⟨rfl, -, hvalue⟩ := name_inj hu.target hu'.target (by decide) (by decide) hchars
  obtain ⟨rfl, -⟩ := Expr.readable hu.value _ _ _ hu'.value (List.append_cancel_left hvalue)
  rfl

theorem chars_stimulus (t : Trace) : (stimulus t).toList = "<b>".toList ++
    (t.signal.toList ++ '<' :: ("/b>: ".toList ++ (t.bits.toList ++ "<br>".toList))) := by
  simp [stimulus]

theorem stimulus_inj (ht : t.signal.toList ∈ SyncCircuit.names)
    (ht' : t'.signal.toList ∈ SyncCircuit.names) (h : stimulus t = stimulus t') : t = t' := by
  obtain ⟨x, cells⟩ := t
  obtain ⟨x', cells'⟩ := t'
  have hchars := congrArg String.toList h
  rw [chars_stimulus, chars_stimulus] at hchars
  obtain ⟨rfl, -, hbits⟩ :=
    name_inj ht ht' (by decide) (by decide) (List.append_cancel_left hchars)
  have hcells := Trace.cells_eq_of_bits_eq
    (String.toList_injective (List.append_cancel_right (List.append_cancel_left hbits)))
  obtain rfl := hcells
  rfl

theorem definition_ne (d : Definition) : definition d ≠ "<h2> Updates </h2>" := by
  intro h
  have hchars := congrArg String.toList h
  simp [chars_definition] at hchars

theorem update_ne (hu : u.WellNamed) : update u ≠ "<h2> Simulation inputs </h2>" := by
  intro h
  have hchars := congrArg String.toList h
  have hheading : "<h2> Simulation inputs </h2>".toList =
      [] ++ '<' :: "h2> Simulation inputs </h2>".toList := by simp
  rw [chars_update, hheading] at hchars
  obtain ⟨-, hmark, -⟩ := append_cons_inj (not_outsideNames hu.target) (List.forall_mem_nil _)
    (by decide) (by decide) hchars
  cases hmark

theorem lines_inj (hp : p.WellNamed) (hq : q.WellNamed) (h : lines p = lines q) : p = q := by
  obtain ⟨x, is, os, ls, ds, us, ts⟩ := p
  obtain ⟨x', is', os', ls', ds', us', ts'⟩ := q
  rw [lines_eq, lines_eq] at h
  obtain ⟨hopening, hsections⟩ := List.append_inj h rfl
  obtain rfl : x = x' := by simpa [opening] using hopening
  simp only [List.cons.injEq, true_and] at hsections
  obtain ⟨hinputs, houtputs, hlatches, hbody⟩ := hsections
  obtain rfl := names_inj hp.inputs hq.inputs hinputs
  obtain rfl := names_inj hp.outputs hq.outputs houtputs
  obtain rfl := names_inj hp.latches hq.latches hlatches
  -- The heading that comes next is none of the lines before it.
  obtain ⟨hdefinitions, -, hequations⟩ := append_cons_inj (p := (· = "<h2> Updates </h2>"))
    (List.forall_mem_map.mpr fun d _ => definition_ne d)
    (List.forall_mem_map.mpr fun d _ => definition_ne d) rfl rfl hbody
  obtain rfl := eq_of_map_eq hdefinitions fun d hd d' hd' =>
    definition_inj (hp.definitions d hd) (hq.definitions d' hd')
  obtain ⟨hupdates, -, hdriven⟩ := append_cons_inj (p := (· = "<h2> Simulation inputs </h2>"))
    (List.forall_mem_map.mpr fun u hu => update_ne (hp.updates u hu))
    (List.forall_mem_map.mpr fun u hu => update_ne (hq.updates u hu)) rfl rfl hequations
  obtain rfl := eq_of_map_eq hupdates fun u hu u' hu' =>
    update_inj (hp.updates u hu) (hq.updates u' hu')
  obtain rfl := eq_of_map_eq (List.append_cancel_right hdriven) fun t ht t' ht' =>
    stimulus_inj (hp.stimuli t ht) (hq.stimuli t' ht')
  rfl

end inversion

end Page

namespace Program

variable {p q : Program}

theorem page_inj (hp : p.WellNamed) (hq : q.WellNamed) (h : p.page = q.page) : p = q := by
  have hbreak : ∀ line : String, OneLine line.toList → '\n' ∉ line.toList := by
    intro line hline hmem
    cases hline '\n' hmem
  refine Page.lines_inj hp hq (terminated_inj (by simp : "\n".toList = ['\n'])
    (fun line hl => hbreak line (Page.oneLine_lines hp line hl))
    (fun line hl => hbreak line (Page.oneLine_lines hq line hl)) h)

/-- Two descriptions that were read have the same page only if they are the same in every field, and
two expressions in which all names are words have the same formula only if they are the same. All
names in what was read are words. -/
theorem page_determines {text text' : String} (hp : parse text = .ok p) (hq : parse text' = .ok q) :
    (p.page = q.page ↔ p = q) ∧ p.WellNamed ∧ q.WellNamed ∧
    (∀ d e : Expr, d.WellNamed → e.WellNamed → (d.formula = e.formula ↔ d = e)) ∧
    ∀ word e, Expr.parse word = .ok e → e.WellNamed := by
  have hwell := wellNamed_of_parse hp
  have hwell' := wellNamed_of_parse hq
  refine ⟨⟨page_inj hwell hwell', congrArg page⟩, hwell, hwell', fun d e hd he => ?_,
    fun _ _ he => Expr.wellNamed_of_parse he⟩
  refine ⟨fun h => ?_, congrArg Expr.formula⟩
  exact (Expr.readable hd e [] [] he (by rw [h])).1

def oneEquation (value : Expr) : Program where
  name := "h"
  inputs := ["a", "b", "c"]
  outputs := ["y"]
  latches := []
  definitions := []
  updates := [⟨"y", value⟩]
  stimuli := [.ofValues "a" [false, true]]

theorem page_determines_grouped : ∃ p q,
    parse ".hardware h .inputs a b c .outputs y .update y = a * (b + c) .simulate a = 01" = .ok p ∧
    parse ".hardware h .inputs a b c .outputs y .update y = a * b + c .simulate a = 01" = .ok q ∧
    p.page ≠ q.page ∧ p.updates.map (·.value.formula) =
      ["(\\mathrm\x7ba\x7d\\wedge (\\mathrm\x7bb\x7d\\vee \\mathrm\x7bc\x7d))"] := by
  have hp : parse ".hardware h .inputs a b c .outputs y .update y = a * (b + c) .simulate a = 01" =
      .ok (oneEquation (.and (.signal "a") (.or (.signal "b") (.signal "c")))) := rfl
  have hq : parse ".hardware h .inputs a b c .outputs y .update y = a * b + c .simulate a = 01" =
      .ok (oneEquation (.or (.and (.signal "a") (.signal "b")) (.signal "c"))) := rfl
  exact ⟨_, _, hp, hq, mt (page_determines hp hq).1.mp (by decide), by decide⟩

end Program

end SyncCircuit
