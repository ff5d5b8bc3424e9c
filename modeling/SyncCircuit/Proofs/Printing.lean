import SyncCircuit.Proofs.Parsing

/-!
Parsing the text of an expression. Everything but a negation of a negation is read as it was
written. There two slashes come together and begin a comment, which has no end within the text: what
stands before it never is an expression.
-/

namespace SyncCircuit

open Grammar (CommaList Ident Phrase)

/-- A text that divides into tokens, wherever it stands. -/
def Reads (cs : List Char) (ts : List Token) : Prop :=
  ∀ offset, ∃ ps : List Placed, ps.map Placed.token = ts ∧ Scan.ofChars 0 offset cs = ⟨ps, none⟩

def EndsName (rest : List Char) : Prop := ∀ c ∈ rest.head?, isNamePart c = false ∧ c ≠ '\''

def OneLine (cs : List Char) : Prop := ∀ c ∈ cs, isLineBreak c = false

instance (cs : List Char) : Decidable (OneLine cs) := List.decidableBAll _ cs

section reads

variable {c : Char} {w cs rest : List Char} {ts : List Token} {l : Lexeme}

theorem reads_nil : Reads [] [] := fun _ => ⟨[], rfl, rfl⟩

theorem reads_of_first? (h : Lexeme.first? cs = some l) (hr : Reads l.rest ts) :
    Reads cs (l.token.toList ++ ts) := by
  intro offset
  obtain ⟨ps, rfl, hps⟩ := hr (offset + Text.byteCount l.text)
  rw [Scan.ofChars_zero h, hps]
  cases l.token with
  | none => exact ⟨ps, rfl, rfl⟩
  | some t => exact ⟨_ :: ps, rfl, rfl⟩

theorem reads_blank (hc : Text.isBlank c = true) (hr : Reads cs ts) : Reads (c :: cs) ts := by
  intro offset
  rw [Scan.ofChars_blank hc]
  exact hr _

theorem reads_mark {m : Mark} (hm : m ≠ .negate) (hr : Reads rest ts) :
    Reads (m.spelling.toList ++ rest) (.mark m :: ts) :=
  reads_of_first? (Lexeme.first?_mark hm rest) hr

theorem first?_negate (hs : c ≠ '/') (ht : c ≠ '*') (cs : List Char) :
    Lexeme.first? ('/' :: c :: cs) = some ⟨some (.mark .negate), ['/'], c :: cs⟩ := by
  unfold Lexeme.first?
  split
  · next h => cases h
  · next h => exact absurd (List.cons.inj (List.cons.inj h).2).1 hs
  · next h => exact absurd (List.cons.inj (List.cons.inj h).2).1 ht
  · next h =>
    obtain ⟨rfl, rfl⟩ := List.cons.inj h
    rfl

theorem reads_negate (hs : c ≠ '/') (ht : c ≠ '*') (hr : Reads (c :: cs) ts) :
    Reads ('/' :: c :: cs) (.mark .negate :: ts) :=
  reads_of_first? (first?_negate hs ht cs) hr

theorem reads_comment (h : OneLine cs) : Reads ('/' :: '/' :: cs) [] := by
  have hrest : (Lexeme.ofLineComment cs).rest = [] := by
    have hdrop : cs.dropWhile (!isLineBreak ·) = [] :=
      List.dropWhile_eq_nil_iff.mpr fun c hc => by simp [h c hc]
    simp [Lexeme.ofLineComment, hdrop]
  refine reads_of_first? (l := .ofLineComment cs) rfl ?_
  rw [hrest]
  exact reads_nil

theorem ofName_of_endsName (hw : ∀ c ∈ w, isNamePart c = true) (hr : EndsName rest) :
    Lexeme.ofName (w ++ rest) = ⟨some (.name (String.ofList w)), w, rest⟩ := by
  cases rest with
  | nil =>
    simp [Lexeme.ofName, List.takeWhile_eq_self_iff.mpr hw, List.dropWhile_eq_nil_iff.mpr hw]
  | cons c rest =>
    obtain ⟨hc, hq⟩ := hr c rfl
    simp [Lexeme.ofName, List.takeWhile_append_of_pos hw, List.dropWhile_append_of_pos hw, hc, hq]

theorem first?_name (hw : w ∈ names) (he : EndsName rest) :
    Lexeme.first? (w ++ rest) = some ⟨some (.name (String.ofList w)), w, rest⟩ := by
  obtain ⟨_, ⟨c, hc, rfl⟩, v, hv, rfl⟩ := Language.mem_mul.mp hw
  obtain ⟨a, q, rfl, ha, hq⟩ := mem_many_mul.mp hv
  have hall : ∀ d ∈ c :: a, isNamePart d = true :=
    List.forall_mem_cons.mpr ⟨isNamePart_of_isNameStart hc, ha⟩
  rcases hq with rfl | rfl
  · have hf := Lexeme.first?_of_isNameStart hc (a ++ '\'' :: rest)
    rw [← List.cons_append, Lexeme.ofName_quote hall] at hf
    simpa using hf
  · have hf := Lexeme.first?_of_isNameStart hc (a ++ rest)
    rw [← List.cons_append, ofName_of_endsName hall he] at hf
    simpa using hf

theorem reads_name {x : Name} (hx : x.toList ∈ names) (he : EndsName rest) (hr : Reads rest ts) :
    Reads (x.toList ++ rest) (.name x :: ts) := by
  have hname := reads_of_first? (first?_name hx he) hr
  rwa [String.ofList_toList] at hname

theorem oneLine_append {a b : List Char} : OneLine (a ++ b) ↔ OneLine a ∧ OneLine b :=
  List.forall_mem_append

theorem oneLine_cons : OneLine (c :: cs) ↔ isLineBreak c = false ∧ OneLine cs :=
  List.forall_mem_cons

theorem mem_of_mem_names (hw : w ∈ names) (hc : c ∈ w) : isNamePart c = true ∨ c = '\'' := by
  obtain ⟨_, ⟨d, hd, rfl⟩, v, hv, rfl⟩ := Language.mem_mul.mp hw
  obtain ⟨a, q, rfl, ha, hq⟩ := mem_many_mul.mp hv
  rw [List.singleton_append, List.mem_cons, List.mem_append] at hc
  rcases hc with rfl | hc | hc
  · exact .inl (isNamePart_of_isNameStart hd)
  · exact .inl (ha c hc)
  · rcases hq with rfl | rfl
    · exact .inr (List.mem_singleton.mp hc)
    · cases hc

theorem oneLine_name (hw : w ∈ names) : OneLine w := by
  intro c hc
  rw [Bool.eq_false_iff]
  intro hb
  simp only [isLineBreak, Bool.or_eq_true, decide_eq_true_eq] at hb
  rcases mem_of_mem_names hw hc with hpart | rfl
  · rcases hb with rfl | rfl <;> cases hpart
  · rcases hb with hb | hb <;> cases hb

theorem oneLine_joined {separator : String} {ss : List String} (hsep : OneLine separator.toList)
    (h : ∀ s ∈ ss, OneLine s.toList) : OneLine (Text.joined separator ss).toList := by
  induction ss with
  | nil => exact List.forall_mem_nil _
  | cons s ss ih =>
    obtain ⟨hs, hss⟩ := List.forall_mem_cons.mp h
    cases ss with
    | nil => exact hs
    | cons t ss =>
      rw [Text.joined, String.toList_append, String.toList_append, oneLine_append, oneLine_append]
      exact ⟨⟨hs, hsep⟩, ih hss⟩

end reads

namespace Expr

/-- Somewhere a negation is applied directly to a negation. -/
inductive Doubled : Expr → Prop where
  | here (a : Expr) : Doubled (.not (.not a))
  | andLeft {a : Expr} (b : Expr) : Doubled a → Doubled (.and a b)
  | andRight (a : Expr) {b : Expr} : Doubled b → Doubled (.and a b)
  | orLeft {a : Expr} (b : Expr) : Doubled a → Doubled (.or a b)
  | orRight (a : Expr) {b : Expr} : Doubled b → Doubled (.or a b)
  | not {a : Expr} : Doubled a → Doubled (.not a)
  | argument (f : Name) {a : Expr} {as : List Expr} : a ∈ as → Doubled a → Doubled (.call f as)

def Node.name? : Node → Option Name
  | signal x => some x
  | call f _ => some f
  | _ => none

def WellNamed (e : Expr) : Prop := ∀ n ∈ e.nodes, ∀ x ∈ n.name?, x.toList ∈ names

section text

variable {x f : Name} {a b e : Expr} {as : List Expr}

@[simp] theorem wellNamed_signal : (signal x).WellNamed ↔ x.toList ∈ names := by
  simp [WellNamed, Node.name?]

@[simp] theorem wellNamed_and : (and a b).WellNamed ↔ a.WellNamed ∧ b.WellNamed := by
  simp [WellNamed, Node.name?, or_imp, forall_and]

@[simp] theorem wellNamed_or : (or a b).WellNamed ↔ a.WellNamed ∧ b.WellNamed := by
  simp [WellNamed, Node.name?, or_imp, forall_and]

@[simp] theorem wellNamed_not : (not a).WellNamed ↔ a.WellNamed := by
  simp [WellNamed, Node.name?]

@[simp] theorem wellNamed_call :
    (call f as).WellNamed ↔ f.toList ∈ names ∧ ∀ a ∈ as, a.WellNamed := by
  simp only [WellNamed, nodes_call, List.mem_cons, List.mem_flatMap, forall_eq_or_imp,
    Node.name?, Option.mem_some_iff, forall_eq']
  exact and_congr_right fun _ => ⟨fun h a ha n hn => h n ⟨a, ha, hn⟩,
    fun h n ⟨a, ha, hn⟩ => h a ha n hn⟩

@[simp] theorem not_doubled_signal : ¬ (signal x).Doubled := nofun

@[simp] theorem doubled_and : (and a b).Doubled ↔ a.Doubled ∨ b.Doubled := by
  constructor
  · intro h
    cases h with
    | andLeft _ ha => exact .inl ha
    | andRight _ hb => exact .inr hb
  · rintro (ha | hb)
    · exact .andLeft b ha
    · exact .andRight a hb

@[simp] theorem doubled_or : (or a b).Doubled ↔ a.Doubled ∨ b.Doubled := by
  constructor
  · intro h
    cases h with
    | orLeft _ ha => exact .inl ha
    | orRight _ hb => exact .inr hb
  · rintro (ha | hb)
    · exact .orLeft b ha
    · exact .orRight a hb

@[simp] theorem doubled_not : (not a).Doubled ↔ (∃ b, a = not b) ∨ a.Doubled := by
  constructor
  · intro h
    cases h with
    | here b => exact .inl ⟨b, rfl⟩
    | not ha => exact .inr ha
  · rintro (⟨b, rfl⟩ | ha)
    · exact .here b
    · exact .not ha

@[simp] theorem doubled_call : (call f as).Doubled ↔ ∃ a ∈ as, a.Doubled := by
  constructor
  · intro h
    cases h with
    | argument _ ha hd => exact ⟨_, ha, hd⟩
  · rintro ⟨a, ha, hd⟩
    exact .argument f ha hd

def operation (m : Mark) (left right : List Char) : List Char :=
  '(' :: (left ++ ' ' :: (m.spelling.toList ++ ' ' :: (right ++ [')'])))

theorem toList_text_and :
    (and a b).text.toList = operation .times a.text.toList b.text.toList := by
  simp [operation, Mark.spelling, String.toList_append]

theorem toList_text_or :
    (or a b).text.toList = operation .plus a.text.toList b.text.toList := by
  simp [operation, Mark.spelling, String.toList_append]

theorem toList_text_not : (not a).text.toList = '/' :: a.text.toList := by
  simp [String.toList_append]

theorem toList_text_call : (call f as).text.toList =
    f.toList ++ '(' :: ((Text.joined ", " (as.map text)).toList ++ [')']) := by
  simp [String.toList_append]

theorem oneLine_spelling (m : Mark) : OneLine m.spelling.toList := by cases m <;> decide

theorem oneLine_operation {m : Mark} {left right : List Char} :
    OneLine (operation m left right) ↔ OneLine left ∧ OneLine right := by
  have hopen : isLineBreak '(' = false := rfl
  have hspace : isLineBreak ' ' = false := rfl
  have hclose : OneLine [')'] := by decide
  simp only [operation, oneLine_cons, oneLine_append, oneLine_spelling, hopen, hspace, hclose,
    true_and, and_true]

theorem oneLine_text (h : e.WellNamed) : OneLine e.text.toList := by
  induction e using Expr.induct with
  | signal x =>
    rw [text_signal]
    exact oneLine_name (wellNamed_signal.mp h)
  | and a b iha ihb =>
    obtain ⟨ha, hb⟩ := wellNamed_and.mp h
    rw [toList_text_and, oneLine_operation]
    exact ⟨iha ha, ihb hb⟩
  | or a b iha ihb =>
    obtain ⟨ha, hb⟩ := wellNamed_or.mp h
    rw [toList_text_or, oneLine_operation]
    exact ⟨iha ha, ihb hb⟩
  | not a ih =>
    rw [toList_text_not, oneLine_cons]
    exact ⟨rfl, ih (wellNamed_not.mp h)⟩
  | call f as ih =>
    obtain ⟨hf, has⟩ := wellNamed_call.mp h
    have hargs : OneLine (Text.joined ", " (as.map text)).toList :=
      oneLine_joined (by decide) (List.forall_mem_map.mpr fun a ha => ih a ha (has a ha))
    rw [toList_text_call, oneLine_append, oneLine_cons, oneLine_append]
    exact ⟨oneLine_name hf, rfl, hargs, by decide⟩

end text

section prints

variable {m : Mark} {left right cs : List Char} {P Q : List Token → Prop} {e a b : Expr}
variable {as : List Expr} {c : Char}

/-- A text that reads as tokens of some kind, whatever comes after it. -/
def Prints (cs : List Char) (P : List Token → Prop) : Prop :=
  ∀ rest us, EndsName rest → Reads rest us → ∃ ts, P ts ∧ Reads (cs ++ rest) (ts ++ us)

theorem reads_spaced {rest : List Char} {us : List Token} (hm : m ≠ .negate)
    (h : Reads rest us) : Reads (' ' :: (m.spelling.toList ++ ' ' :: rest)) (.mark m :: us) :=
  reads_blank rfl (reads_mark hm (reads_blank rfl h))

theorem endsName_cons {c : Char} {rest : List Char} (h : isNamePart c = false) (hq : c ≠ '\'') :
    EndsName (c :: rest) := by
  intro d hd
  obtain rfl := Option.some.inj hd
  exact ⟨h, hq⟩

theorem prints_infixed (hm : m ≠ .negate) (hl : Prints left P) (hr : Prints right Q) :
    Prints (left ++ ' ' :: (m.spelling.toList ++ ' ' :: right)) fun ts =>
      ∃ us vs, P us ∧ Q vs ∧ ts = us ++ .mark m :: vs := by
  intro rest ws he hrest
  obtain ⟨vs, hv, hright⟩ := hr rest ws he hrest
  obtain ⟨us, hu, hleft⟩ := hl _ _ (endsName_cons rfl (by decide)) (reads_spaced hm hright)
  refine ⟨_, ⟨us, vs, hu, hv, rfl⟩, ?_⟩
  simpa using hleft

theorem prints_operation (hm : m ≠ .negate) (hl : Prints left P) (hr : Prints right Q) :
    Prints (operation m left right) fun ts => ∃ us vs, P us ∧ Q vs ∧
      ts = .mark .openParen :: ((us ++ .mark m :: vs) ++ [.mark .closeParen]) := by
  intro rest ws _ hrest
  have hclose : Reads (')' :: rest) (.mark .closeParen :: ws) :=
    reads_mark (m := .closeParen) (by decide) hrest
  obtain ⟨_, ⟨us, vs, hu, hv, rfl⟩, hinfixed⟩ :=
    prints_infixed hm hl hr _ _ (endsName_cons rfl (by decide)) hclose
  have hopen := reads_mark (m := .openParen) (by decide) hinfixed
  refine ⟨_, ⟨us, vs, hu, hv, rfl⟩, ?_⟩
  simpa [operation, Mark.spelling] using hopen

theorem Prints.imp (h : Prints cs P) (hpq : ∀ ts, P ts → Q ts) : Prints cs Q := by
  intro rest us he hrest
  obtain ⟨ts, ht, hr⟩ := h rest us he hrest
  exact ⟨ts, hpq ts ht, hr⟩

theorem prints_block (h : cs ∈ commentBodies) : Prints ('/' :: '*' :: cs) (· = []) := by
  intro rest us _ hrest
  have hclose := (closeComment?_append cs rest).1 h
  have hfirst : Lexeme.first? ('/' :: '*' :: (cs ++ rest)) =
      some ⟨none, '/' :: '*' :: cs, rest⟩ := by
    rw [Lexeme.first?, hclose]
  exact ⟨[], rfl, reads_of_first? hfirst hrest⟩

theorem prints_name {x : Name} (hx : x.toList ∈ names) : Prints x.toList (Ident · x) :=
  fun _ _ he hrest => ⟨[.name x], rfl, reads_name hx he hrest⟩

theorem prints_signal {x : Name} (hx : x.toList ∈ names) :
    Prints x.toList (Phrase .factor · (.signal x)) := by
  apply (prints_name hx).imp
  rintro _ rfl
  exact .atom (.signal x)

theorem prints_negation (hs : c ≠ '/') (ht : c ≠ '*')
    (ha : Prints (c :: cs) (Phrase .factor · a)) :
    Prints ('/' :: c :: cs) (Phrase .factor · (.not a)) := by
  intro rest us he hrest
  obtain ⟨ts, ht', hr⟩ := ha rest us he hrest
  exact ⟨_, .not ht', reads_negate hs ht hr⟩

theorem prints_sum (ha : Prints left (Phrase .sum · a)) (hb : Prints right (Phrase .product · b)) :
    Prints (left ++ ' ' :: '+' :: ' ' :: right) (Phrase .sum · (.or a b)) := by
  apply (prints_infixed (m := .plus) (by decide) ha hb).imp
  rintro _ ⟨us, vs, hu, hv, rfl⟩
  exact .or hu hv

theorem prints_product (ha : Prints left (Phrase .product · a))
    (hb : Prints right (Phrase .factor · b)) :
    Prints (left ++ ' ' :: '*' :: ' ' :: right) (Phrase .product · (.and a b)) := by
  apply (prints_infixed (m := .times) (by decide) ha hb).imp
  rintro _ ⟨us, vs, hu, hv, rfl⟩
  exact .and hu hv

theorem prints_commaList {α : Type} {text : α → String} {D : List Token → α → Prop} {as : List α}
    (h : ∀ a ∈ as, Prints (text a).toList (D · a)) :
    Prints (Text.joined ", " (as.map text)).toList (CommaList D · as) := by
  induction as with
  | nil => exact fun rest us _ hrest => ⟨[], .nil, hrest⟩
  | cons a as ih =>
    obtain ⟨ha, has⟩ := List.forall_mem_cons.mp h
    intro rest us he hrest
    cases as with
    | nil =>
      obtain ⟨ts, ht, hr⟩ := ha rest us he hrest
      exact ⟨ts, .last ht, hr⟩
    | cons b as =>
      obtain ⟨vs, hv, hr⟩ := ih has rest us he hrest
      have hcomma : Reads (',' :: ' ' :: _) (.mark .comma :: _) :=
        reads_mark (m := .comma) (by decide) (reads_blank rfl hr)
      obtain ⟨ts, ht, hr⟩ := ha _ _ (endsName_cons rfl (by decide)) hcomma
      refine ⟨ts ++ .mark .comma :: vs, .cons ht hv, ?_⟩
      simpa [Text.joined, String.toList_append, Mark.spelling] using hr

/-- The text of a negation begins with a slash, and no other text of an expression does. -/
theorem head_text (h : e.WellNamed) (hn : ¬ ∃ a, e = not a) :
    ∃ c cs, e.text.toList = c :: cs ∧ c ≠ '/' ∧ c ≠ '*' := by
  have hname : ∀ x : Name, x.toList ∈ names → ∃ c cs, x.toList = c :: cs ∧ c ≠ '/' ∧ c ≠ '*' := by
    intro x hx
    obtain ⟨_, ⟨c, hc, rfl⟩, v, _, heq⟩ := Language.mem_mul.mp hx
    refine ⟨c, v, heq.symm, ?_, ?_⟩ <;> (rintro rfl; cases hc)
  cases e with
  | signal x =>
    rw [text_signal]
    exact hname x (wellNamed_signal.mp h)
  | and a b => exact ⟨_, _, toList_text_and, by decide, by decide⟩
  | or a b => exact ⟨_, _, toList_text_or, by decide, by decide⟩
  | not a => exact absurd ⟨a, rfl⟩ hn
  | call f as =>
    obtain ⟨c, cs, hf, hs⟩ := hname f (wellNamed_call.mp h).1
    exact ⟨c, _, by rw [toList_text_call, hf]; rfl, hs⟩

theorem prints_text (h : e.WellNamed) (hd : ¬ e.Doubled) :
    Prints e.text.toList (Phrase .factor · e) := by
  induction e using Expr.induct with
  | signal x =>
    rw [text_signal]
    exact prints_signal (wellNamed_signal.mp h)
  | and a b iha ihb =>
    rw [doubled_and, not_or] at hd
    obtain ⟨ha, hb⟩ := wellNamed_and.mp h
    intro rest us he hrest
    rw [toList_text_and]
    obtain ⟨ts, ⟨vs, ws, hv, hw, rfl⟩, hr⟩ :=
      prints_operation (m := .times) (by decide) (iha ha hd.1) (ihb hb hd.2) rest us he hrest
    exact ⟨_, .atom (.group (.product (.and (.factor hv) hw))), hr⟩
  | or a b iha ihb =>
    rw [doubled_or, not_or] at hd
    obtain ⟨ha, hb⟩ := wellNamed_or.mp h
    intro rest us he hrest
    rw [toList_text_or]
    obtain ⟨ts, ⟨vs, ws, hv, hw, rfl⟩, hr⟩ :=
      prints_operation (m := .plus) (by decide) (iha ha hd.1) (ihb hb hd.2) rest us he hrest
    exact ⟨_, .atom (.group (.or (.product (.factor hv)) (.factor hw))), hr⟩
  | not a ih =>
    rw [doubled_not, not_or] at hd
    have ha := wellNamed_not.mp h
    have hoperand := ih ha hd.2
    -- The operand is no negation, so that no comment begins with the slash before it.
    obtain ⟨c, cs, hc, hslash, hstar⟩ := head_text ha hd.1
    rw [hc] at hoperand
    rw [toList_text_not, hc]
    exact prints_negation hslash hstar hoperand
  | call f as ih =>
    simp only [doubled_call, not_exists, not_and] at hd
    obtain ⟨hf, has⟩ := wellNamed_call.mp h
    intro rest us _ hrest
    have hclose : Reads (')' :: rest) (.mark .closeParen :: us) :=
      reads_mark (m := .closeParen) (by decide) hrest
    have hargs : ∀ a ∈ as, Prints a.text.toList (Phrase .sum · a) := fun a ha =>
      (ih a ha (has a ha) (hd a ha)).imp fun _ ht => .product (.factor ht)
    obtain ⟨ts, ht, hr⟩ := prints_commaList hargs _ _ (endsName_cons rfl (by decide)) hclose
    have hopen : Reads ('(' :: _) (.mark .openParen :: _) :=
      reads_mark (m := .openParen) (by decide) hr
    have hname := reads_name hf (endsName_cons rfl (by decide)) hopen
    refine ⟨_, .atom (.call f ht), ?_⟩
    simpa [toList_text_call] using hname

end prints

section stops

open Reading (After Leads)

variable {m : Mark} {left right cs : List Char} {ts us : List Token} {e a : Expr}
variable {as : List Expr}

/-- Tokens after which the reader still waits for an operand. -/
def Stops (ts : List Token) : Prop :=
  ∀ s : Reading, s.beginsOperand = true →
    ∃ s', reader.reach s ts = some s' ∧ s'.beginsOperand = true

/-- A text that reads as such tokens, with all that comes after it on its line. -/
def Stopping (cs : List Char) : Prop :=
  ∀ rest, OneLine rest → ∃ ts, Stops ts ∧ Reads (cs ++ rest) ts

theorem stops_nil : Stops [] := fun s hs => ⟨s, rfl, hs⟩

theorem Stops.negate (h : Stops ts) : Stops (.mark .negate :: ts) := by
  intro s hs
  obtain ⟨s', hs', hb⟩ :=
    h ⟨s.opened, { s.pending with negations := s.pending.negations + 1 }, .operand⟩ rfl
  exact ⟨s', (Reader.reach_cons_of_step (Reading.step?_negate hs) ts).trans hs', hb⟩

theorem Stops.group (h : Stops ts) : Stops (.mark .openParen :: ts) := by
  intro s hs
  obtain ⟨s', hs', hb⟩ := h ⟨.group s.pending :: s.opened, .nothing, .operand⟩ rfl
  exact ⟨s', (Reader.reach_cons_of_step (Reading.step?_openParen hs) ts).trans hs', hb⟩

theorem Stops.operation (hm : m = .times ∨ m = .plus) (ha : Phrase .factor us a) (h : Stops ts) :
    Stops (.mark .openParen :: (us ++ .mark m :: ts)) := by
  intro s hs
  obtain ⟨s₁, h₁, _, b, hb, _⟩ := Reading.leads_of_phrase (.factor ha)
    ⟨.group s.pending :: s.opened, .nothing, .operand⟩ rfl ⟨rfl, rfl⟩
  obtain ⟨s₂, h₂, hs₂⟩ : ∃ s₂, s₁.step? (.mark m) = some s₂ ∧ s₂.beginsOperand = true := by
    rcases hm with rfl | rfl
    · exact ⟨_, Reading.step?_times hb, rfl⟩
    · exact ⟨_, Reading.step?_plus (Reading.sum?_of_factor? hb), rfl⟩
  obtain ⟨s', hs', hend⟩ := h s₂ hs₂
  refine ⟨s', ?_, hend⟩
  rw [Reader.reach_cons_of_step (Reading.step?_openParen hs), Reader.reach_append_of_reach h₁,
    Reader.reach_cons_of_step h₂, hs']

def StopsArguments (ts : List Token) : Prop :=
  ∀ before f bs outer, ∃ s', reader.reach ⟨.call before f bs :: outer, .nothing, .argument⟩ ts =
    some s' ∧ s'.beginsOperand = true

theorem Stops.arguments (h : Stops ts) : StopsArguments ts := fun _ _ _ _ => h _ rfl

theorem StopsArguments.comma (ha : Phrase .sum us a) (h : StopsArguments ts) :
    StopsArguments (us ++ .mark .comma :: ts) := by
  intro before f bs outer
  obtain ⟨s₁, h₁, hafter⟩ := Reading.leads_of_phrase ha
    ⟨.call before f bs :: outer, .nothing, .argument⟩ rfl rfl
  obtain ⟨s', hs', hend⟩ := h before f (bs ++ [a]) outer
  refine ⟨s', ?_, hend⟩
  rw [Reader.reach_append_of_reach h₁,
    Reader.reach_cons_of_step (Reading.step?_comma hafter.opened hafter.sum?), hs']

theorem StopsArguments.call (f : Name) (h : StopsArguments ts) :
    Stops (.name f :: .mark .openParen :: ts) := by
  intro s hs
  obtain ⟨s', hs', hend⟩ := h s.pending f [] s.opened
  refine ⟨s', ?_, hend⟩
  rw [Reader.reach_cons_of_step (Reading.step?_name hs f), ← hs']
  rfl

theorem stopping_left (hl : Stopping left) (hr : OneLine right) :
    Stopping (operation m left right) := by
  intro rest hrest
  have hline : OneLine (' ' :: (m.spelling.toList ++ ' ' :: (right ++ ')' :: rest))) := by
    have hspace : isLineBreak ' ' = false := rfl
    have hclose : isLineBreak ')' = false := rfl
    simp only [oneLine_cons, oneLine_append]
    exact ⟨hspace, oneLine_spelling m, hspace, hr, hclose, hrest⟩
  obtain ⟨ts, hs, hread⟩ := hl _ hline
  have hopen : Reads ('(' :: _) (.mark .openParen :: ts) :=
    reads_mark (m := .openParen) (by decide) hread
  exact ⟨_, hs.group, by simpa [operation] using hopen⟩

theorem stopping_right (hm : m = .times ∨ m = .plus) (hl : Prints left (Phrase .factor · a))
    (hr : Stopping right) : Stopping (operation m left right) := by
  intro rest hrest
  have hne : m ≠ .negate := by rcases hm with rfl | rfl <;> decide
  obtain ⟨ts, hs, hright⟩ := hr (')' :: rest) (oneLine_cons.mpr ⟨rfl, hrest⟩)
  obtain ⟨us, hu, hleft⟩ := hl _ _ (endsName_cons rfl (by decide)) (reads_spaced hne hright)
  have hopen : Reads ('(' :: _) (.mark .openParen :: _) :=
    reads_mark (m := .openParen) (by decide) hleft
  exact ⟨_, hs.operation hm hu, by simpa [operation] using hopen⟩

theorem stopping_arguments
    (hp : ∀ a ∈ as, ¬ a.Doubled → Prints a.text.toList (Phrase .factor · a))
    (hs : ∀ a ∈ as, a.Doubled → Stopping a.text.toList)
    (hl : ∀ a ∈ as, OneLine a.text.toList) (hd : ∃ a ∈ as, a.Doubled) {rest : List Char}
    (hrest : OneLine rest) :
    ∃ ts, StopsArguments ts ∧ Reads ((Text.joined ", " (as.map text)).toList ++ rest) ts := by
  induction as with
  | nil => simp at hd
  | cons a as ih =>
    obtain ⟨hpa, hp⟩ := List.forall_mem_cons.mp hp
    obtain ⟨hsa, hs⟩ := List.forall_mem_cons.mp hs
    obtain ⟨-, hl⟩ := List.forall_mem_cons.mp hl
    rw [List.exists_mem_cons_iff] at hd
    cases as with
    | nil =>
      have ha : a.Doubled := hd.resolve_right (by simp)
      obtain ⟨ts, ht, hread⟩ := hsa ha rest hrest
      exact ⟨ts, ht.arguments, hread⟩
    | cons b as =>
      -- Either the comment begins in this argument, or it is read and the rest stops.
      have hjoined : (Text.joined ", " ((a :: b :: as).map text)).toList ++ rest =
          a.text.toList ++ ',' :: ' ' ::
            ((Text.joined ", " ((b :: as).map text)).toList ++ rest) := by
        simp [Text.joined, String.toList_append]
      rw [hjoined]
      by_cases ha : a.Doubled
      · have hline : OneLine (',' :: ' ' ::
            ((Text.joined ", " ((b :: as).map text)).toList ++ rest)) := by
          simp only [oneLine_cons, oneLine_append]
          exact ⟨rfl, rfl, oneLine_joined (by decide) (List.forall_mem_map.mpr hl), hrest⟩
        obtain ⟨ts, ht, hread⟩ := hsa ha _ hline
        exact ⟨ts, ht.arguments, hread⟩
      · obtain ⟨ts, ht, hread⟩ := ih hp hs hl (hd.resolve_left ha)
        have hcomma : Reads (',' :: ' ' :: _) (.mark .comma :: ts) :=
          reads_mark (m := .comma) (by decide) (reads_blank rfl hread)
        obtain ⟨us, hu, hread⟩ := hpa ha _ _ (endsName_cons rfl (by decide)) hcomma
        exact ⟨_, ht.comma (.product (.factor hu)), hread⟩

/-- The text of an expression with a doubled negation breaks off before an operand. -/
theorem stopping_text (h : e.WellNamed) (hd : e.Doubled) : Stopping e.text.toList := by
  induction e using Expr.induct with
  | signal x => exact absurd hd not_doubled_signal
  | and a b iha ihb =>
    obtain ⟨ha, hb⟩ := wellNamed_and.mp h
    rw [toList_text_and]
    by_cases hda : a.Doubled
    · exact stopping_left (iha ha hda) (oneLine_text hb)
    · have hdb := (doubled_and.mp hd).resolve_left hda
      exact stopping_right (.inl rfl) (prints_text ha hda) (ihb hb hdb)
  | or a b iha ihb =>
    obtain ⟨ha, hb⟩ := wellNamed_or.mp h
    rw [toList_text_or]
    by_cases hda : a.Doubled
    · exact stopping_left (iha ha hda) (oneLine_text hb)
    · have hdb := (doubled_or.mp hd).resolve_left hda
      exact stopping_right (.inr rfl) (prints_text ha hda) (ihb hb hdb)
  | not a ih =>
    have ha := wellNamed_not.mp h
    intro rest hrest
    rw [toList_text_not]
    by_cases hn : ∃ b, a = not b
    · obtain ⟨b, rfl⟩ := hn
      refine ⟨[], stops_nil, ?_⟩
      rw [toList_text_not]
      exact reads_comment (oneLine_append.mpr ⟨oneLine_text (wellNamed_not.mp ha), hrest⟩)
    · obtain ⟨ts, ht, hread⟩ := ih ha ((doubled_not.mp hd).resolve_left hn) rest hrest
      obtain ⟨c, cs, hc, hslash, hstar⟩ := head_text ha hn
      rw [hc] at hread
      refine ⟨_, ht.negate, ?_⟩
      rw [hc]
      exact reads_negate hslash hstar hread
  | call f as ih =>
    obtain ⟨hf, has⟩ := wellNamed_call.mp h
    intro rest hrest
    obtain ⟨ts, ht, hread⟩ := stopping_arguments (fun a ha => prints_text (has a ha))
      (fun a ha => ih a ha (has a ha)) (fun a ha => oneLine_text (has a ha)) (doubled_call.mp hd)
      (oneLine_cons.mpr ⟨rfl, hrest⟩ : OneLine (')' :: rest))
    have hopen : Reads ('(' :: _) (.mark .openParen :: ts) :=
      reads_mark (m := .openParen) (by decide) hread
    have hname := reads_name hf (endsName_cons rfl (by decide)) hopen
    exact ⟨_, ht.call f, by simpa [toList_text_call] using hname⟩

end stops

section parse

variable {e : Expr}

theorem unexpectedEnd_text (h : e.WellNamed) (hd : e.Doubled) :
    ∃ ps, UnexpectedEnd (Phrase .sum) e.text ps := by
  obtain ⟨ts, hs, hread⟩ := stopping_text h hd [] (List.forall_mem_nil _)
  obtain ⟨ps, rfl, hps⟩ := hread 0
  rw [List.append_nil] at hps
  obtain ⟨s, hreach, hb⟩ := hs .start rfl
  have hnone : s.result = none := by
    obtain ⟨opened, pending, cursor⟩ := s
    cases opened <;> cases cursor <;> first | rfl | cases hb
  refine ⟨ps, Scan.ofText_eq_iff.mp hps, reader_recognizes.viable_iff.mpr ⟨s, hreach⟩, ?_⟩
  rintro ⟨a, ha⟩
  obtain ⟨s', hreach', hresult⟩ := phrase_iff.mp ha
  obtain rfl := Option.some.inj (hreach.symm.trans hreach')
  rw [hnone] at hresult
  cases hresult

theorem parse_text_of_not_doubled (h : e.WellNamed) (hd : ¬ e.Doubled) :
    parse e.text = .ok e := by
  obtain ⟨ts, ht, hread⟩ := prints_text h hd [] [] (by simp [EndsName]) reads_nil
  rw [List.append_nil, List.append_nil] at hread
  obtain ⟨ps, rfl, hps⟩ := hread 0
  exact parse_eq_ok_iff.mpr ⟨ps, Scan.ofText_eq_iff.mp hps, .product (.factor ht)⟩

theorem parse_text_of_doubled (h : e.WellNamed) (hd : e.Doubled) : ∃ span expected,
    parse e.text = .error (.parse span
      ("Parse error: Unexpected end of input. " ++ Refusal.alternatives expected)) := by
  obtain ⟨ps, hend⟩ := unexpectedEnd_text h hd
  cases hp : parse e.text with
  | ok a =>
    obtain ⟨qs, hm, ha⟩ := parse_eq_ok_iff.mp hp
    cases hend.lexed.scan_eq hm
    exact absurd ⟨a, ha⟩ hend.incomplete
  | error f =>
    obtain ⟨span, expected, rfl⟩ := (diagnosis_of_parse hp).of_unexpectedEnd hend
    exact ⟨span, expected, rfl⟩

/-- An expression is read back from its text exactly if no negation is applied directly to another
one. Otherwise its text is refused as incomplete, and never read as another expression. -/
theorem parse_text (h : e.WellNamed) : (parse e.text = .ok e ↔ ¬ e.Doubled) ∧
    (e.Doubled → ∃ span expected, parse e.text = .error (.parse span
      ("Parse error: Unexpected end of input. " ++ Refusal.alternatives expected))) := by
  refine ⟨⟨fun hp hd => ?_, parse_text_of_not_doubled h⟩, parse_text_of_doubled h⟩
  obtain ⟨span, expected, he⟩ := parse_text_of_doubled h hd
  rw [hp] at he
  cases he

theorem parse_text_twice : ∃ e : Expr, e = .call "f" [.signal "x", .not (.not (.signal "y"))] ∧
    e.WellNamed ∧ e.Doubled ∧ parse e.text ≠ .ok e ∧
    ∃ span expected, parse e.text = .error (.parse span
      ("Parse error: Unexpected end of input. " ++ Refusal.alternatives expected)) := by
  have name {c : Char} (hc : isNameStart c = true) : [c] ∈ names :=
    cons_mem_oneOf_mul.mpr ⟨hc, nil_mem_many_mul.mpr (.inr rfl)⟩
  have h : (Expr.call "f" [.signal "x", .not (.not (.signal "y"))]).WellNamed := by
    simp only [wellNamed_call, List.mem_cons, List.not_mem_nil, or_false, forall_eq_or_imp,
      forall_eq, wellNamed_signal, wellNamed_not]
    exact ⟨name (c := 'f') rfl, name (c := 'x') rfl, name (c := 'y') rfl⟩
  have hd : (Expr.call "f" [.signal "x", .not (.not (.signal "y"))]).Doubled :=
    .argument "f" (by simp) (.here (.signal "y"))
  have hp := parse_text h
  exact ⟨_, rfl, h, hd, fun he => hp.1.mp he hd, hp.2 hd⟩

end parse

end Expr

end SyncCircuit
