import Mathlib.Data.List.Basic
import SyncCircuit.Program.Reader
import SyncCircuit.Proofs.ExprReading

/-!
The reader of circuit descriptions recognizes the grammar. Equations and definitions follow each
other without a mark between them: the reader is behind a complete one as soon as the tokens of its
expression are one, and finds out with the next token.
-/

namespace SyncCircuit

namespace Trace

theorem mapM_readBit (x : Name) (values : List Bool) :
    (values.map digit).mapM (readBit x) = .ok values := by
  induction values with
  | nil => rfl
  | cons b values ih =>
    rw [List.map_cons, List.mapM_cons, ih]
    cases b <;> rfl

theorem ofBits_text (x : Name) (values : List Bool) :
    ofBits x (Token.bits values).text = .ok (ofValues x values) := by
  simp only [ofBits, Token.text, String.toList_ofList, mapM_readBit]
  rfl

end Trace

open Grammar

namespace Grammar

theorem stimulus_iff {ts : List Token} {tr : Trace} : Stimulus ts tr ↔
    ∃ x values, ts = [.name x, .mark .equals, .bits values] ∧ tr = .ofValues x values := by
  constructor
  · rintro ⟨x, values, h⟩
    rw [Trace.ofBits_text] at h
    exact ⟨x, values, rfl, (Except.ok.inj h).symm⟩
  · rintro ⟨x, values, rfl, rfl⟩
    exact .mk x values (Trace.ofBits_text x values)

inductive Stage where
  | inputs
  | outputs
  | latches
  | definitions
  | updates
  | stimuli
deriving DecidableEq

/-- Beginnings of descriptions that end with a section, and what they say. -/
inductive UpTo : Stage → List Token → Program → Prop where
  | inputs (x : Name) {ts : List Token} {inputs : List Name} : Repeated Ident ts inputs →
      UpTo .inputs ([.mark .hardware, .name x, .mark .inputs] ++ ts)
        ⟨x, inputs, [], [], [], [], []⟩
  | outputs {x : Name} {ts us : List Token} {inputs outputs : List Name} :
      UpTo .inputs ts ⟨x, inputs, [], [], [], [], []⟩ → Repeated Ident us outputs →
      UpTo .outputs (ts ++ .mark .outputs :: us) ⟨x, inputs, outputs, [], [], [], []⟩
  | latches {x : Name} {ts us : List Token} {inputs outputs latches : List Name} :
      UpTo .outputs ts ⟨x, inputs, outputs, [], [], [], []⟩ → Latches us latches →
      UpTo .latches (ts ++ us) ⟨x, inputs, outputs, latches, [], [], []⟩
  | definitions {x : Name} {ts us : List Token} {inputs outputs latches : List Name}
      {definitions : List Definition} :
      UpTo .latches ts ⟨x, inputs, outputs, latches, [], [], []⟩ → Repeated Def us definitions →
      UpTo .definitions (ts ++ us) ⟨x, inputs, outputs, latches, definitions, [], []⟩
  | updates {x : Name} {ts us : List Token} {inputs outputs latches : List Name}
      {definitions : List Definition} {updates : List Update} :
      UpTo .definitions ts ⟨x, inputs, outputs, latches, definitions, [], []⟩ →
      Repeated Equation us updates →
      UpTo .updates (ts ++ .mark .update :: us)
        ⟨x, inputs, outputs, latches, definitions, updates, []⟩
  | stimuli {x : Name} {ts us : List Token} {inputs outputs latches : List Name}
      {definitions : List Definition} {updates : List Update} {stimuli : List Trace} :
      UpTo .updates ts ⟨x, inputs, outputs, latches, definitions, updates, []⟩ →
      Repeated Stimulus us stimuli →
      UpTo .stimuli (ts ++ .mark .simulate :: us)
        ⟨x, inputs, outputs, latches, definitions, updates, stimuli⟩

theorem description_iff_upTo {ts : List Token} {p : Program} :
    Description ts p ↔ UpTo .stimuli ts p := by
  constructor
  · rintro ⟨_, hi, ho, hl, hd, hu, hs⟩
    exact .stimuli (.updates (.definitions (.latches (.outputs (.inputs _ hi) ho) hl) hd) hu) hs
  · intro h
    cases h with
    | stimuli h hs =>
    cases h with
    | updates h hu =>
    cases h with
    | definitions h hd =>
    cases h with
    | latches h hl =>
    cases h with
    | outputs h ho =>
    cases h with
    | inputs _ hi => exact .mk _ hi ho hl hd hu hs

namespace UpTo

variable {ts us : List Token} {p : Program}

theorem input (h : UpTo .inputs ts p) (x : Name) :
    UpTo .inputs (ts ++ [.name x]) { p with inputs := p.inputs ++ [x] } := by
  cases h with
  | inputs y hi =>
    rw [List.append_assoc]
    exact .inputs y (hi.concat rfl)

theorem output (h : UpTo .outputs ts p) (x : Name) :
    UpTo .outputs (ts ++ [.name x]) { p with outputs := p.outputs ++ [x] } := by
  cases h with
  | outputs h ho =>
    rw [List.append_assoc]
    exact .outputs h (ho.concat rfl)

theorem latched {xs : List Name} (h : UpTo .outputs ts p) (hl : Latches us xs) :
    UpTo .definitions (ts ++ us) { p with latches := xs } := by
  cases h with
  | outputs h ho =>
    have hd := UpTo.definitions (.latches (.outputs h ho) hl) .nil
    rwa [List.append_nil] at hd

theorem latchless (h : UpTo .outputs ts p) : UpTo .definitions ts p := by
  have hd := h.latched .missing
  rw [List.append_nil] at hd
  cases h with
  | outputs h ho => exact hd

theorem definition {d : Definition} (h : UpTo .definitions ts p) (hd : Def us d) :
    UpTo .definitions (ts ++ us) { p with definitions := p.definitions ++ [d] } := by
  cases h with
  | definitions h hds =>
    rw [List.append_assoc]
    exact .definitions h (hds.concat hd)

theorem update (h : UpTo .definitions ts p) : UpTo .updates (ts ++ [.mark .update]) p := by
  cases h with
  | definitions h hd => exact .updates (.definitions h hd) .nil

theorem equation {u : Update} (h : UpTo .updates ts p) (hu : Equation us u) :
    UpTo .updates (ts ++ us) { p with updates := p.updates ++ [u] } := by
  cases h with
  | updates h hus =>
    rw [List.append_assoc]
    exact .updates h (hus.concat hu)

theorem simulate (h : UpTo .updates ts p) : UpTo .stimuli (ts ++ [.mark .simulate]) p := by
  cases h with
  | updates h hu => exact .stimuli (.updates h hu) .nil

theorem stimulus {tr : Trace} (h : UpTo .stimuli ts p) (ht : Stimulus us tr) :
    UpTo .stimuli (ts ++ us) { p with stimuli := p.stimuli ++ [tr] } := by
  cases h with
  | stimuli h hs =>
    rw [List.append_assoc]
    exact .stimuli h (hs.concat ht)

end UpTo

end Grammar

namespace Program

namespace Reading

variable {p : Program} {s s' : Reading} {t : Token} {ts us : List Token} {m : Mark}

section phrases

variable {α : Type} {P : List Token → α → Prop}

/-- Repeated phrases, when each leads from a state that stands for some values to one that stands
for one value more. -/
theorem reach_repeated {S : List α → Reading → Prop} {as bs : List α}
    (step : ∀ as s ts a, S as s → P ts a → ∃ s', reader.reach s ts = some s' ∧ S (as ++ [a]) s')
    (h : Repeated P ts bs) (hs : S as s) : ∃ s', reader.reach s ts = some s' ∧ S (as ++ bs) s' := by
  induction h generalizing as s with
  | nil => exact ⟨s, rfl, by rwa [List.append_nil]⟩
  | cons ha _ ih =>
    obtain ⟨s₁, h₁, hs₁⟩ := step _ _ _ _ hs ha
    obtain ⟨s₂, h₂, hs₂⟩ := ih hs₁
    refine ⟨s₂, (Reader.reach_append_of_reach h₁ _).trans h₂, ?_⟩
    rwa [List.append_assoc, List.singleton_append] at hs₂

theorem reach_repeated_of_eq {f : List α → Reading} {bs : List α}
    (step : ∀ as ts a, P ts a → reader.reach (f as) ts = some (f (as ++ [a])))
    (h : Repeated P ts bs) (as : List α) : reader.reach (f as) ts = some (f (as ++ bs)) := by
  obtain ⟨s', hs', rfl⟩ := reach_repeated (S := fun as s => s = f as)
    (fun as s ts a hs ha => ⟨_, hs ▸ step as ts a ha, rfl⟩) h rfl
  exact hs'

structure BeforeSection (p : Program) (s : Reading) : Prop where
  define : s.step? (.mark .define) = some ⟨p, .defined⟩
  update : s.step? (.mark .update) = some ⟨p, .updates⟩

structure BeforeEquation (p : Program) (s : Reading) : Prop where
  name : ∀ x, s.step? (.name x) = some ⟨p, .updatedTo x⟩
  simulate : s.step? (.mark .simulate) = some ⟨p, .stimuli⟩

theorem reach_within {place : Expr.Reading → Place}
    (step : ∀ r t r', r.step? t = some r' → step? ⟨p, place r⟩ t = some ⟨p, place r'⟩)
    {r r' : Expr.Reading} (h : Expr.reader.reach r ts = some r') :
    reader.reach ⟨p, place r⟩ ts = some ⟨p, place r'⟩ := by
  induction ts generalizing r with
  | nil =>
    obtain rfl := Option.some.inj h
    rfl
  | cons t ts ih =>
    obtain ⟨r₁, h₁, h₂⟩ := Option.bind_eq_some_iff.mp h
    rw [Reader.reach_cons_of_step (step r t r₁ h₁), ih h₂]

theorem reach_body {f : Name} {xs : List Name} {r r' : Expr.Reading}
    (h : Expr.reader.reach r ts = some r') :
    reader.reach ⟨p, .body f xs r⟩ ts = some ⟨p, .body f xs r'⟩ :=
  reach_within (fun r t r' hr => by simp only [step?, hr]) h

theorem reach_value {x : Name} {r r' : Expr.Reading} (h : Expr.reader.reach r ts = some r') :
    reader.reach ⟨p, .value x r⟩ ts = some ⟨p, .value x r'⟩ :=
  reach_within (fun r t r' hr => by simp only [step?, hr]) h

theorem beforeSection_body {f : Name} {xs : List Name} {r : Expr.Reading} {e : Expr}
    (h : r.result = some e) :
    BeforeSection { p with definitions := p.definitions ++ [⟨f, xs, e⟩] } ⟨p, .body f xs r⟩ := by
  have hd : r.step? (.mark .define) = none := rfl
  have hu : r.step? (.mark .update) = none := rfl
  constructor
  · simp [step?, hd, h, afterBody?, section?]
  · simp [step?, hu, h, afterBody?, section?]

theorem beforeEquation_value {x : Name} {r : Expr.Reading} {e : Expr}
    (h : r.result = some e) :
    BeforeEquation { p with updates := p.updates ++ [⟨x, e⟩] } ⟨p, .value x r⟩ := by
  have hs : r.step? (.mark .simulate) = none := rfl
  constructor
  · intro y
    simp [step?, Expr.Reading.step?_name_of_result h, h, afterValue?]
  · simp [step?, hs, h, afterValue?]

theorem reach_parameters {f : Name} {xs ys : List Name} (h : CommaList Ident ts ys) :
    reader.reach ⟨p, .parameters f xs⟩ (ts ++ [.mark .closeParen]) =
      some ⟨p, .definedAs f (xs ++ ys)⟩ := by
  induction h generalizing xs with
  | nil => simp [Reader.reach, reader, step?]
  | last hx =>
    obtain rfl := hx
    rfl
  | @cons ts us x ys hx _ ih =>
    obtain rfl := hx
    calc
      reader.reach ⟨p, .parameters f xs⟩ ([.name x] ++ .mark .comma :: us ++ [.mark .closeParen]) =
          reader.reach ⟨p, .parameters f (xs ++ [x])⟩ (us ++ [.mark .closeParen]) := rfl
      _ = some ⟨p, .definedAs f (xs ++ [x] ++ ys)⟩ := ih
      _ = some ⟨p, .definedAs f (xs ++ x :: ys)⟩ := by rw [List.append_assoc, List.singleton_append]

theorem reach_definition {d : Definition} (hs : BeforeSection p s) (h : Def ts d) :
    ∃ s', reader.reach s ts = some s' ∧
      BeforeSection { p with definitions := p.definitions ++ [d] } s' := by
  cases h with
  | @mk f ts us xs e hxs he =>
    obtain ⟨r, hr, hresult⟩ := Expr.phrase_iff.mp he
    refine ⟨⟨p, .body f xs r⟩, ?_, beforeSection_body hresult⟩
    have hopen : reader.reach s [.mark .define, .name f, .mark .openParen] =
        some ⟨p, .parameters f []⟩ := by
      rw [Reader.reach_cons_of_step hs.define]
      rfl
    calc
      reader.reach s (.mark .define :: .name f :: .mark .openParen ::
          (ts ++ .mark .closeParen :: .mark .equals :: us)) =
          reader.reach s ([.mark .define, .name f, .mark .openParen] ++
            (ts ++ [.mark .closeParen] ++ .mark .equals :: us)) := by simp
      _ = reader.reach ⟨p, .parameters f []⟩ (ts ++ [.mark .closeParen] ++ .mark .equals :: us) :=
        Reader.reach_append_of_reach hopen _
      _ = reader.reach ⟨p, .definedAs f xs⟩ (.mark .equals :: us) :=
        Reader.reach_append_of_reach (reach_parameters hxs) _
      _ = reader.reach ⟨p, .body f xs .start⟩ us := rfl
      _ = some ⟨p, .body f xs r⟩ := reach_body hr

theorem reach_equation {u : Update} (hs : BeforeEquation p s) (h : Equation ts u) :
    ∃ s', reader.reach s ts = some s' ∧
      BeforeEquation { p with updates := p.updates ++ [u] } s' := by
  cases h with
  | @mk x ts e he =>
    obtain ⟨r, hr, hresult⟩ := Expr.phrase_iff.mp he
    refine ⟨⟨p, .value x r⟩, ?_, beforeEquation_value hresult⟩
    rw [Reader.reach_cons_of_step (hs.name x)]
    exact reach_value hr

theorem reach_stimulus {tr : Trace} (h : Stimulus ts tr) :
    reader.reach ⟨p, .stimuli⟩ ts = some ⟨{ p with stimuli := p.stimuli ++ [tr] }, .stimuli⟩ := by
  obtain ⟨x, values, rfl, rfl⟩ := stimulus_iff.mp h
  rfl

def After : Stage → Program → Reading → Prop
  | .inputs, p, s => s = ⟨p, .inputs⟩
  | .outputs, p, s => s = ⟨p, .outputs⟩ ∧ p.latches = []
  | .latches, p, s => BeforeSection p s
  | .definitions, p, s => BeforeSection p s
  | .updates, p, s => BeforeEquation p s
  | .stimuli, p, s => s = ⟨p, .stimuli⟩

theorem after_inputs {x : Name} {xs : List Name} (h : Repeated Ident ts xs) :
    ∃ s, reader.reach .start ([.mark .hardware, .name x, .mark .inputs] ++ ts) = some s ∧
      After .inputs ⟨x, xs, [], [], [], [], []⟩ s := by
  refine ⟨_, ?_, rfl⟩
  exact reach_repeated_of_eq (f := fun xs => ⟨⟨x, xs, [], [], [], [], []⟩, .inputs⟩)
    (fun _ _ _ hx => by rw [hx]; rfl) h []

theorem after_outputs {x : Name} {xs ys : List Name} (h : Repeated Ident ts ys)
    (hs : After .inputs ⟨x, xs, [], [], [], [], []⟩ s) :
    ∃ s', reader.reach s (.mark .outputs :: ts) = some s' ∧
      After .outputs ⟨x, xs, ys, [], [], [], []⟩ s' := by
  obtain rfl := hs
  refine ⟨_, ?_, rfl, rfl⟩
  exact reach_repeated_of_eq (f := fun ys => ⟨⟨x, xs, ys, [], [], [], []⟩, .outputs⟩)
    (fun _ _ _ hx => by rw [hx]; rfl) h []

theorem after_latches {xs : List Name} (h : Latches ts xs) (hs : After .outputs p s) :
    ∃ s', reader.reach s ts = some s' ∧ After .latches { p with latches := xs } s' := by
  obtain ⟨rfl, hp⟩ := hs
  cases h with
  | missing =>
    refine ⟨_, rfl, ?_⟩
    rw [← hp]
    exact ⟨rfl, rfl⟩
  | present h =>
    refine ⟨⟨{ p with latches := xs }, .latches⟩, ?_, ⟨rfl, rfl⟩⟩
    have hword : (⟨p, .outputs⟩ : Reading).step? (.mark .latches) = some ⟨p, .latches⟩ := rfl
    have hr := reach_repeated_of_eq (f := fun xs => ⟨{ p with latches := xs }, .latches⟩)
      (fun _ _ _ hx => by rw [hx]; rfl) h []
    rw [List.nil_append, ← hp] at hr
    exact (Reader.reach_cons_of_step hword _).trans hr

theorem after_definitions {ds : List Definition} (h : Repeated Def ts ds)
    (hp : p.definitions = []) (hs : After .latches p s) :
    ∃ s', reader.reach s ts = some s' ∧ After .definitions { p with definitions := ds } s' := by
  have hnil : BeforeSection { p with definitions := [] } s := by
    rw [← hp]
    exact hs
  exact reach_repeated (S := fun ds s => BeforeSection { p with definitions := ds } s)
    (fun _ _ _ _ hs hd => reach_definition hs hd) h hnil

theorem after_updates {us : List Update} (h : Repeated Equation ts us) (hp : p.updates = [])
    (hs : After .definitions p s) : ∃ s', reader.reach s (.mark .update :: ts) = some s' ∧
      After .updates { p with updates := us } s' := by
  have hnil : BeforeEquation { p with updates := [] } ⟨p, .updates⟩ := by
    rw [← hp]
    exact ⟨fun _ => rfl, rfl⟩
  rw [Reader.reach_cons_of_step hs.update]
  exact reach_repeated (S := fun us s => BeforeEquation { p with updates := us } s)
    (fun _ _ _ _ hs hu => reach_equation hs hu) h hnil

theorem after_stimuli {trs : List Trace} (h : Repeated Stimulus ts trs) (hp : p.stimuli = [])
    (hs : After .updates p s) : ∃ s', reader.reach s (.mark .simulate :: ts) = some s' ∧
      After .stimuli { p with stimuli := trs } s' := by
  have hr := reach_repeated_of_eq (f := fun trs => ⟨{ p with stimuli := trs }, .stimuli⟩)
    (fun _ _ _ ht => reach_stimulus ht) h []
  refine ⟨_, ?_, rfl⟩
  rwa [List.nil_append, ← hp, ← Reader.reach_cons_of_step hs.simulate] at hr

theorem reach_of_upTo {g : Stage} (h : UpTo g ts p) :
    ∃ s, reader.reach .start ts = some s ∧ After g p s := by
  have next {s₀ s₁ : Reading} {us vs : List Token} {q : Program} {g : Stage}
      (h₀ : reader.reach s₀ us = some s₁)
      (h₁ : ∃ s, reader.reach s₁ vs = some s ∧ After g q s) :
      ∃ s, reader.reach s₀ (us ++ vs) = some s ∧ After g q s := by
    obtain ⟨s, hs, ha⟩ := h₁
    exact ⟨s, (Reader.reach_append_of_reach h₀ vs).trans hs, ha⟩
  induction h with
  | inputs x hi => exact after_inputs hi
  | outputs _ ho ih =>
    obtain ⟨s, hs, ha⟩ := ih
    exact next hs (after_outputs ho ha)
  | latches _ hl ih =>
    obtain ⟨s, hs, ha⟩ := ih
    exact next hs (after_latches hl ha)
  | definitions _ hd ih =>
    obtain ⟨s, hs, ha⟩ := ih
    exact next hs (after_definitions hd rfl ha)
  | updates _ hu ih =>
    obtain ⟨s, hs, ha⟩ := ih
    exact next hs (after_updates hu rfl ha)
  | stimuli _ ht ih =>
    obtain ⟨s, hs, ha⟩ := ih
    exact next hs (after_stimuli ht rfl ha)

end phrases

section prefixes

/-- What the tokens read so far are, at each place. -/
inductive Follows : List Token → Reading → Prop where
  | hardware : Follows [] .start
  | title : Follows [.mark .hardware] ⟨blank, .title⟩
  | inputsWord (x : Name) :
      Follows [.mark .hardware, .name x] ⟨{ blank with name := x }, .inputsWord⟩
  | inputs {ts : List Token} {p : Program} : UpTo .inputs ts p → Follows ts ⟨p, .inputs⟩
  | outputs {ts : List Token} {p : Program} : UpTo .outputs ts p → Follows ts ⟨p, .outputs⟩
  | latches {ts us : List Token} {p : Program} {xs : List Name} : UpTo .outputs ts p →
      Repeated Ident us xs →
      Follows (ts ++ .mark .latches :: us) ⟨{ p with latches := xs }, .latches⟩
  | defined {ts : List Token} {p : Program} : UpTo .definitions ts p →
      Follows (ts ++ [.mark .define]) ⟨p, .defined⟩
  | opening (f : Name) {ts : List Token} {p : Program} : UpTo .definitions ts p →
      Follows (ts ++ [.mark .define, .name f]) ⟨p, .opening f⟩
  | parameters (f : Name) {ts us : List Token} {p : Program} {xs : List Name} :
      UpTo .definitions ts p → Terminated Ident us xs →
      Follows (ts ++ .mark .define :: .name f :: .mark .openParen :: us) ⟨p, .parameters f xs⟩
  | parameter (f x : Name) {ts us : List Token} {p : Program} {xs : List Name} :
      UpTo .definitions ts p → Terminated Ident us xs →
      Follows (ts ++ .mark .define :: .name f :: .mark .openParen :: (us ++ [.name x]))
        ⟨p, .parameter f (xs ++ [x])⟩
  | definedAs (f : Name) {ts us : List Token} {p : Program} {xs : List Name} :
      UpTo .definitions ts p → CommaList Ident us xs →
      Follows (ts ++ .mark .define :: .name f :: .mark .openParen :: (us ++ [.mark .closeParen]))
        ⟨p, .definedAs f xs⟩
  | body (f : Name) {ts us vs : List Token} {p : Program} {xs : List Name} {r : Expr.Reading} :
      UpTo .definitions ts p → CommaList Ident us xs → Expr.reader.reach .start vs = some r →
      Follows (ts ++ .mark .define :: .name f :: .mark .openParen ::
        (us ++ .mark .closeParen :: .mark .equals :: vs)) ⟨p, .body f xs r⟩
  | updates {ts : List Token} {p : Program} : UpTo .updates ts p → Follows ts ⟨p, .updates⟩
  | updatedTo (x : Name) {ts : List Token} {p : Program} : UpTo .updates ts p →
      Follows (ts ++ [.name x]) ⟨p, .updatedTo x⟩
  | value (x : Name) {ts us : List Token} {p : Program} {r : Expr.Reading} :
      UpTo .updates ts p → Expr.reader.reach .start us = some r →
      Follows (ts ++ .name x :: .mark .equals :: us) ⟨p, .value x r⟩
  | stimuli {ts : List Token} {p : Program} : UpTo .stimuli ts p → Follows ts ⟨p, .stimuli⟩
  | driven (x : Name) {ts : List Token} {p : Program} : UpTo .stimuli ts p →
      Follows (ts ++ [.name x]) ⟨p, .driven x⟩
  | stimulus (x : Name) {ts : List Token} {p : Program} : UpTo .stimuli ts p →
      Follows (ts ++ [.name x, .mark .equals]) ⟨p, .stimulus x⟩

theorem follows_section (h : UpTo .definitions ts p) (hs : section? p m = some s') :
    Follows (ts ++ [.mark m]) s' := by
  unfold section? at hs
  split at hs
  · obtain rfl := Option.some.inj hs
    exact .defined h
  · obtain rfl := Option.some.inj hs
    exact .updates h.update
  · cases hs

theorem follows_body {f : Name} {xs : List Name} {r : Expr.Reading}
    (h : Follows ts ⟨p, .body f xs r⟩) (hs : step? ⟨p, .body f xs r⟩ t = some s') :
    Follows (ts ++ [t]) s' := by
  cases h with
  | body _ hp hxs hr =>
    simp only [step?] at hs
    split at hs
    · next r' hstep =>
      obtain rfl := Option.some.inj hs
      have hr' := (Reader.reach_append_of_reach hr [t]).trans (Reader.reach_singleton.trans hstep)
      simpa using Follows.body f hp hxs hr'
    · obtain ⟨e, he, ht⟩ := Option.bind_eq_some_iff.mp hs
      have hd := hp.definition (.mk f hxs (Expr.phrase_iff.mpr ⟨r, hr, he⟩))
      cases t with
      | mark m => exact follows_section hd ht
      | name y => cases ht
      | bits values => cases ht

theorem follows_value {x : Name} {r : Expr.Reading}
    (h : Follows ts ⟨p, .value x r⟩) (hs : step? ⟨p, .value x r⟩ t = some s') :
    Follows (ts ++ [t]) s' := by
  cases h with
  | value _ hp hr =>
    simp only [step?] at hs
    split at hs
    · next r' hstep =>
      obtain rfl := Option.some.inj hs
      have hr' := (Reader.reach_append_of_reach hr [t]).trans (Reader.reach_singleton.trans hstep)
      simpa using Follows.value x hp hr'
    · obtain ⟨e, he, ht⟩ := Option.bind_eq_some_iff.mp hs
      have hu := hp.equation (.mk x (Expr.phrase_iff.mpr ⟨r, hr, he⟩))
      unfold afterValue? at ht
      split at ht
      · obtain rfl := Option.some.inj ht
        exact .updatedTo _ hu
      · obtain rfl := Option.some.inj ht
        exact .stimuli hu.simulate
      · cases ht

theorem follows_step (h : Follows ts s) (hs : s.step? t = some s') : Follows (ts ++ [t]) s' := by
  have hstep := hs
  -- One case for each place and each token that can come there, in the order of the reader.
  unfold step? at hs
  split at hs
  all_goals try obtain rfl := Option.some.inj hs
  · cases h with
    | hardware => exact .title
  · cases h with
    | title => exact .inputsWord _
  · cases h with
    | inputsWord x => exact .inputs (.inputs x .nil)
  · cases h with
    | inputs h => exact .inputs (h.input _)
  · cases h with
    | inputs h =>
      cases h with
      | inputs x hi => exact .outputs (.outputs (.inputs x hi) .nil)
  · cases h with
    | outputs h => exact .outputs (h.output _)
  · cases h with
    | outputs h =>
      cases h with
      | outputs hi ho => exact .latches (.outputs hi ho) .nil
  · cases h with
    | outputs h => exact follows_section h.latchless hs
  · cases h with
    | latches h hl => simpa using Follows.latches h (hl.concat rfl)
  · cases h with
    | latches h hl => exact follows_section (h.latched (.present hl)) hs
  · cases h with
    | defined h => simpa using Follows.opening _ h
  · cases h with
    | opening _ h => simpa using Follows.parameters _ h .nil
  · cases h with
    | parameters _ h hxs => simpa using Follows.parameter _ _ h hxs
  · cases h with
    | parameters _ h hxs => simpa using Follows.definedAs _ h hxs.commaList
  · cases h with
    | parameter _ _ h hxs => simpa using Follows.parameters _ h (hxs.concat rfl)
  · cases h with
    | parameter _ _ h hxs => simpa using Follows.definedAs _ h (hxs.append (.last rfl))
  · cases h with
    | definedAs _ h hxs => simpa using Follows.body _ h hxs (Reader.reach_nil (r := Expr.reader))
  · exact follows_body h hstep
  · cases h with
    | updates h => exact .updatedTo _ h
  · cases h with
    | updates h => exact .stimuli h.simulate
  · cases h with
    | updatedTo _ h => simpa using Follows.value _ h (Reader.reach_nil (r := Expr.reader))
  · exact follows_value h hstep
  · cases h with
    | stimuli h => exact .driven _ h
  · cases h with
    | driven _ h => simpa using Follows.stimulus _ h
  · next p x values =>
    cases h with
    | stimulus _ h =>
      have ht := h.stimulus (stimulus_iff.mpr ⟨x, values, rfl, rfl⟩)
      simpa using Follows.stimuli ht
  · cases hs

theorem follows_of_reach (h : reader.reach .start ts = some s) : Follows ts s :=
  Reader.reach_invariant .hardware (fun _ _ _ _ => follows_step) h

theorem Follows.result (h : Follows ts s) (hp : s.result = some p) : UpTo .stimuli ts p := by
  cases h with
  | stimuli h =>
    obtain rfl := Option.some.inj hp
    exact h
  | _ => cases hp

end prefixes

section completion

def Completes (s : Reading) : Prop := ∃ ts s' p, reader.reach s ts = some s' ∧ s'.result = some p

theorem Completes.of_step (hs : s.step? t = some s') (h : Completes s') : Completes s := by
  obtain ⟨ts, s₁, p, h₁, hp⟩ := h
  exact ⟨t :: ts, s₁, p, (Reader.reach_cons_of_step hs ts).trans h₁, hp⟩

theorem Completes.of_reach (ts : List Token) (hs : reader.reach s ts = some s')
    (h : Completes s') : Completes s := by
  obtain ⟨us, s₁, p, h₁, hp⟩ := h
  exact ⟨ts ++ us, s₁, p, (Reader.reach_append_of_reach hs us).trans h₁, hp⟩

theorem completes_stimuli (p : Program) : Completes ⟨p, .stimuli⟩ := ⟨[], _, p, rfl, rfl⟩

theorem completes_updates (p : Program) : Completes ⟨p, .updates⟩ :=
  .of_step (t := .mark .simulate) rfl (completes_stimuli p)

theorem completes_body (p : Program) (f : Name) (xs : List Name) (r : Expr.Reading) :
    Completes ⟨p, .body f xs r⟩ := by
  obtain ⟨ts, r', e, hr, he⟩ := r.exists_result
  exact .of_reach ts (reach_body hr)
    (.of_step (beforeSection_body he).update (completes_updates _))

theorem completes_value (p : Program) (x : Name) (r : Expr.Reading) :
    Completes ⟨p, .value x r⟩ := by
  obtain ⟨ts, r', e, hr, he⟩ := r.exists_result
  exact .of_reach ts (reach_value hr)
    (.of_step (beforeEquation_value he).simulate (completes_stimuli _))

theorem completes_outputs (p : Program) : Completes ⟨p, .outputs⟩ :=
  .of_step (t := .mark .update) rfl (completes_updates p)

theorem completes_inputs (p : Program) : Completes ⟨p, .inputs⟩ :=
  .of_step (t := .mark .outputs) rfl (completes_outputs p)

theorem completes_definedAs (p : Program) (f : Name) (xs : List Name) :
    Completes ⟨p, .definedAs f xs⟩ :=
  .of_step (t := .mark .equals) rfl (completes_body p f xs .start)

theorem completes_parameters (p : Program) (f : Name) (xs : List Name) :
    Completes ⟨p, .parameters f xs⟩ :=
  .of_step (t := .mark .closeParen) rfl (completes_definedAs p f xs)

/-- No state is a dead end. -/
theorem completes (s : Reading) : Completes s := by
  obtain ⟨p, place⟩ := s
  cases place with
  | hardware =>
    exact .of_reach [.mark .hardware, .name "_", .mark .inputs] rfl (completes_inputs _)
  | title => exact .of_reach [.name "_", .mark .inputs] rfl (completes_inputs _)
  | inputsWord => exact .of_step (t := .mark .inputs) rfl (completes_inputs _)
  | inputs => exact completes_inputs p
  | outputs => exact completes_outputs p
  | latches => exact .of_step (t := .mark .update) rfl (completes_updates p)
  | defined => exact .of_reach [.name "_", .mark .openParen] rfl (completes_parameters p _ _)
  | opening f => exact .of_step (t := .mark .openParen) rfl (completes_parameters p f _)
  | parameters f xs => exact completes_parameters p f xs
  | parameter f xs => exact .of_step (t := .mark .closeParen) rfl (completes_definedAs p f xs)
  | definedAs f xs => exact completes_definedAs p f xs
  | body f xs r => exact completes_body p f xs r
  | updates => exact completes_updates p
  | updatedTo x => exact .of_step (t := .mark .equals) rfl (completes_value p x .start)
  | value x r => exact completes_value p x r
  | stimuli => exact completes_stimuli p
  | driven x => exact .of_reach [.mark .equals, .bits [false]] rfl (completes_stimuli _)
  | stimulus x => exact .of_step (t := .bits [false]) rfl (completes_stimuli _)

end completion

end Reading

theorem description_iff {ts : List Token} {p : Program} : Description ts p ↔
    ∃ s, reader.reach .start ts = some s ∧ s.result = some p := by
  rw [description_iff_upTo]
  constructor
  · intro h
    obtain ⟨s, hs, rfl⟩ := Reading.reach_of_upTo h
    exact ⟨_, hs, rfl⟩
  · rintro ⟨s, hs, hp⟩
    exact (Reading.follows_of_reach hs).result hp

theorem reader_recognizes : reader.Recognizes Description where
  value _ _ := description_iff
  completable _ s _ := s.completes

end Program

end SyncCircuit
