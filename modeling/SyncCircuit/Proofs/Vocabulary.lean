import SyncCircuit.Proofs.Printing

/-!
The names of a description. They are those of its tokens, in the same order, and so words of the
lexical grammar.
-/

namespace SyncCircuit

open Grammar (CommaList Def Description Equation Ident Latches Phrase Repeated Stimulus)

namespace Expr

def vocabulary (e : Expr) : List Name := e.nodes.filterMap Node.name?

@[simp] theorem vocabulary_signal (x : Name) : (signal x).vocabulary = [x] := by
  simp [vocabulary, Node.name?]

@[simp] theorem vocabulary_and (a b : Expr) :
    (and a b).vocabulary = a.vocabulary ++ b.vocabulary := by
  simp [vocabulary, List.filterMap_cons, Node.name?]

@[simp] theorem vocabulary_or (a b : Expr) :
    (or a b).vocabulary = a.vocabulary ++ b.vocabulary := by
  simp [vocabulary, List.filterMap_cons, Node.name?]

@[simp] theorem vocabulary_not (a : Expr) : (not a).vocabulary = a.vocabulary := by
  simp [vocabulary, List.filterMap_cons, Node.name?]

@[simp] theorem vocabulary_call (f : Name) (as : List Expr) :
    (call f as).vocabulary = f :: as.flatMap vocabulary := by
  simp only [vocabulary, nodes_call, List.filterMap_cons, Node.name?, List.filterMap_flatMap]
  rfl

theorem wellNamed_iff {e : Expr} : e.WellNamed ↔ ∀ x ∈ e.vocabulary, x.toList ∈ names := by
  simp only [WellNamed, vocabulary, List.mem_filterMap, forall_exists_index, and_imp]
  exact ⟨fun h x n hn hx => h n hn x hx, fun h n hn x hx => h x n hn hx⟩

end Expr

def Definition.vocabulary (d : Definition) : List Name :=
  d.name :: (d.parameters ++ d.body.vocabulary)

def Update.vocabulary (u : Update) : List Name := u.target :: u.value.vocabulary

def Program.vocabulary (p : Program) : List Name :=
  p.name :: (p.inputs ++ p.outputs ++ p.latches ++ p.definitions.flatMap Definition.vocabulary ++
    p.updates.flatMap Update.vocabulary ++ p.stimuli.map Trace.signal)

def Token.name? : Token → Option Name
  | .name x => some x
  | _ => none

def Token.vocabulary (ts : List Token) : List Name := ts.filterMap Token.name?

namespace Token

variable {ts us : List Token} {x : Name} {m : Mark} {values : List Bool}

@[simp] theorem vocabulary_nil : vocabulary [] = [] := rfl

@[simp] theorem vocabulary_name_cons : vocabulary (.name x :: ts) = x :: vocabulary ts := rfl

@[simp] theorem vocabulary_mark_cons : vocabulary (.mark m :: ts) = vocabulary ts := rfl

@[simp] theorem vocabulary_bits_cons : vocabulary (.bits values :: ts) = vocabulary ts := rfl

@[simp] theorem vocabulary_append : vocabulary (ts ++ us) = vocabulary ts ++ vocabulary us :=
  List.filterMap_append

theorem mem_of_mem_vocabulary (h : x ∈ vocabulary ts) : .name x ∈ ts := by
  obtain ⟨t, ht, hx⟩ := List.mem_filterMap.mp h
  cases t with
  | name y =>
    obtain rfl := Option.some.inj hx
    exact ht
  | mark m => cases hx
  | bits values => cases hx

end Token

section phrases

variable {α : Type} {P : List Token → α → Prop} {f : α → List Name}

/-- Phrases whose tokens have the names of what they mean, in the same order. -/
def KeepsNames (P : List Token → α → Prop) (f : α → List Name) : Prop :=
  ∀ ts a, P ts a → Token.vocabulary ts = f a

theorem KeepsNames.repeated (hP : KeepsNames P f) : KeepsNames (Repeated P) (List.flatMap f) := by
  intro ts as h
  induction h with
  | nil => rfl
  | cons ha _ ih => rw [Token.vocabulary_append, hP _ _ ha, ih, List.flatMap_cons]

theorem KeepsNames.commaList (hP : KeepsNames P f) : KeepsNames (CommaList P) (List.flatMap f) := by
  intro ts as h
  induction h with
  | nil => rfl
  | last ha => rw [hP _ _ ha, List.flatMap_singleton]
  | cons ha _ ih =>
    rw [Token.vocabulary_append, hP _ _ ha, Token.vocabulary_mark_cons, ih, List.flatMap_cons]

theorem keepsNames_ident : KeepsNames Ident fun x => [x] := by
  rintro _ x rfl
  rfl

theorem keepsNames_phrase (l : Grammar.Level) : KeepsNames (Phrase l) Expr.vocabulary := by
  intro ts e h
  refine Phrase.induct (motive := fun _ ts e => Token.vocabulary ts = e.vocabulary)
    ?or (fun _ _ => id) ?and (fun _ _ => id) ?not (fun _ _ => id) ?signal ?call ?group h
  case or =>
    intro ts us a b ha hb
    simp [ha, hb]
  case and =>
    intro ts us a b ha hb
    simp [ha, hb]
  case not =>
    intro ts a ha
    simp [ha]
  case signal => exact fun x => (Expr.vocabulary_signal x).symm
  case call =>
    intro f ts as has
    have harguments := KeepsNames.commaList (fun _ _ ha => ha) ts as has
    simp [harguments]
  case group =>
    intro ts e he
    simpa using he

theorem keepsNames_def : KeepsNames Def Definition.vocabulary := by
  rintro _ _ ⟨f, hxs, he⟩
  have hparameters := keepsNames_ident.commaList _ _ hxs
  simp [hparameters, keepsNames_phrase _ _ _ he, Definition.vocabulary]

theorem keepsNames_equation : KeepsNames Equation Update.vocabulary := by
  rintro _ _ ⟨x, he⟩
  simp [keepsNames_phrase _ _ _ he, Update.vocabulary]

theorem keepsNames_stimulus : KeepsNames Stimulus fun t => [t.signal] := by
  intro ts t h
  obtain ⟨x, values, rfl, rfl⟩ := Grammar.stimulus_iff.mp h
  rfl

theorem keepsNames_latches : KeepsNames Latches id := by
  rintro _ _ (_ | hxs)
  · rfl
  · simpa using keepsNames_ident.repeated _ _ hxs

theorem keepsNames_description : KeepsNames Description Program.vocabulary := by
  rintro _ _ ⟨x, his, hos, hls, hds, hus, hss⟩
  have hinputs := keepsNames_ident.repeated _ _ his
  have houtputs := keepsNames_ident.repeated _ _ hos
  have hlatches := keepsNames_latches _ _ hls
  have hdefinitions := keepsNames_def.repeated _ _ hds
  have hupdates := keepsNames_equation.repeated _ _ hus
  have hstimuli := keepsNames_stimulus.repeated _ _ hss
  simp [hinputs, houtputs, hlatches, hdefinitions, hupdates, hstimuli, Program.vocabulary,
    List.map_eq_flatMap]

end phrases

theorem MaximalMunch.mem_names_of_mem {offset : ℕ} {cs : List Char} {ps : List Placed}
    (h : MaximalMunch offset cs ⟨ps, none⟩) {x : Name}
    (hx : x ∈ Token.vocabulary (ps.map Placed.token)) : x.toList ∈ names := by
  obtain ⟨p, hp, ht⟩ := List.mem_map.mp (Token.mem_of_mem_vocabulary hx)
  exact h.mem_names p hp x ht

structure Definition.WellNamed (d : Definition) : Prop where
  name : d.name.toList ∈ names
  parameters : ∀ x ∈ d.parameters, x.toList ∈ names
  body : d.body.WellNamed

structure Update.WellNamed (u : Update) : Prop where
  target : u.target.toList ∈ names
  value : u.value.WellNamed

structure Program.WellNamed (p : Program) : Prop where
  name : p.name.toList ∈ names
  inputs : ∀ x ∈ p.inputs, x.toList ∈ names
  outputs : ∀ x ∈ p.outputs, x.toList ∈ names
  latches : ∀ x ∈ p.latches, x.toList ∈ names
  definitions : ∀ d ∈ p.definitions, d.WellNamed
  updates : ∀ u ∈ p.updates, u.WellNamed
  stimuli : ∀ t ∈ p.stimuli, t.signal.toList ∈ names

theorem Definition.wellNamed_iff {d : Definition} :
    d.WellNamed ↔ ∀ x ∈ d.vocabulary, x.toList ∈ names := by
  rw [vocabulary, List.forall_mem_cons, List.forall_mem_append, ← Expr.wellNamed_iff]
  exact ⟨fun h => ⟨h.name, h.parameters, h.body⟩, fun ⟨hf, hx, he⟩ => ⟨hf, hx, he⟩⟩

theorem Update.wellNamed_iff {u : Update} :
    u.WellNamed ↔ ∀ x ∈ u.vocabulary, x.toList ∈ names := by
  rw [vocabulary, List.forall_mem_cons, ← Expr.wellNamed_iff]
  exact ⟨fun h => ⟨h.target, h.value⟩, fun ⟨hx, he⟩ => ⟨hx, he⟩⟩

theorem Program.wellNamed_iff {p : Program} :
    p.WellNamed ↔ ∀ x ∈ p.vocabulary, x.toList ∈ names := by
  simp only [vocabulary, List.forall_mem_cons, List.forall_mem_append, List.forall_mem_map,
    List.forall_mem_flatMap, ← Definition.wellNamed_iff, ← Update.wellNamed_iff]
  constructor
  · exact fun h => ⟨h.name, ⟨⟨⟨⟨h.inputs, h.outputs⟩, h.latches⟩, h.definitions⟩, h.updates⟩,
      h.stimuli⟩
  · exact fun ⟨hname, ⟨⟨⟨⟨hinputs, houtputs⟩, hlatches⟩, hdefinitions⟩, hupdates⟩, hstimuli⟩ =>
      ⟨hname, hinputs, houtputs, hlatches, hdefinitions, hupdates, hstimuli⟩

theorem Program.wellNamed_of_parse {text : String} {p : Program} (h : parse text = .ok p) :
    p.WellNamed := by
  obtain ⟨ps, hps, hd⟩ := parse_eq_ok_iff.mp h
  rw [wellNamed_iff, ← keepsNames_description _ _ hd]
  exact fun x hx => hps.mem_names_of_mem hx

theorem Expr.wellNamed_of_parse {text : String} {e : Expr} (h : parse text = .ok e) :
    e.WellNamed := by
  obtain ⟨ps, hps, he⟩ := parse_eq_ok_iff.mp h
  rw [wellNamed_iff, ← keepsNames_phrase _ _ _ he]
  exact fun x hx => hps.mem_names_of_mem hx

end SyncCircuit
