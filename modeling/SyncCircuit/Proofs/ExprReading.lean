import Mathlib.Data.List.Basic
import SyncCircuit.Expr.Reader
import SyncCircuit.Proofs.Grammar
import SyncCircuit.Proofs.Recognition

/-!
The reader of expressions recognizes the grammar. Each phrase leads it from before an operand to
behind one; and what is kept of the tokens read is at every point a stack of open parentheses, each
with the beginning of a sum before it.
-/

namespace SyncCircuit

namespace Expr

open Grammar (Phrase Level CommaList Terminated)

namespace Reading

variable {s s' : Reading} {ts us : List Token} {t : Token} {e a : Expr} {x f : Name}

section phrases

theorem step?_name (h : s.beginsOperand = true) (x : Name) :
    s.step? (.name x) = some { s with cursor := .name x } := by
  simp [step?, h]

theorem step?_negate (h : s.beginsOperand = true) : s.step? (.mark .negate) =
    some ⟨s.opened, { s.pending with negations := s.pending.negations + 1 }, .operand⟩ := by
  simp [step?, h]

theorem step?_openParen (h : s.beginsOperand = true) :
    s.step? (.mark .openParen) = some ⟨.group s.pending :: s.opened, .nothing, .operand⟩ := by
  obtain ⟨opened, pending, cursor⟩ := s
  cases cursor <;> first | rfl | cases h

theorem step?_times (h : s.factor? = some a) : s.step? (.mark .times) =
    some ⟨s.opened, ⟨s.pending.sum, some (s.pending.productWith a), 0⟩, .operand⟩ := by
  simp [step?, h]

theorem step?_plus (h : s.sum? = some a) :
    s.step? (.mark .plus) = some ⟨s.opened, ⟨some a, none, 0⟩, .operand⟩ := by
  simp [step?, h]

theorem sum?_of_factor? (h : s.factor? = some a) : s.sum? = some (s.pending.sumWith a) := by
  obtain ⟨opened, pending, cursor⟩ := s
  cases cursor <;> simp_all [factor?, sum?]

theorem step?_comma {before : Pending} {as : List Expr} {outer : List Opened}
    (ho : s.opened = .call before f as :: outer) (h : s.sum? = some a) :
    s.step? (.mark .comma) =
      some ⟨.call before f (as ++ [a]) :: outer, .nothing, .argument⟩ := by
  simp [step?, ho, h]

theorem close?_group {before : Pending} {outer : List Opened}
    (ho : s.opened = .group before :: outer) (h : s.sum? = some e) :
    s.step? (.mark .closeParen) = some ⟨outer, before, .factor e⟩ := by
  simp [step?, close?, ho, h]

theorem close?_call {before : Pending} {as : List Expr} {outer : List Opened}
    (ho : s.opened = .call before f as :: outer) (h : s.sum? = some a) :
    s.step? (.mark .closeParen) = some ⟨outer, before, .factor (.call f (as ++ [a]))⟩ := by
  obtain ⟨opened, pending, cursor⟩ := s
  cases cursor <;> simp_all [step?, close?, sum?]

theorem step?_name_of_result (h : s.result = some e) (x : Name) : s.step? (.name x) = none := by
  obtain ⟨opened, pending, cursor⟩ := s
  cases opened <;> cases cursor <;> first | rfl | cases h

/-- What must stand before a phrase of a level for it to be read as one. -/
def Ready : Level → Pending → Prop
  | .sum, p => p = .nothing
  | .product, p => p.product = none ∧ p.negations = 0
  | .factor, _ => True
  | .atom, _ => True

/-- What stands before the last operand `a`, after a phrase of a level with the value `e`. -/
def Completes (e a : Expr) (before after : Pending) : Level → Prop
  | .sum => after.sumWith a = e
  | .product => after.sum = before.sum ∧ after.productWith a = e
  | .factor => ∃ n, after = { before with negations := before.negations + n } ∧
      Pending.negate n a = e
  | .atom => after = before ∧ a = e

/-- The state after a phrase, seen from the state before. -/
structure After (l : Level) (e : Expr) (s s' : Reading) : Prop where
  opened : s'.opened = s.opened
  operand : ∃ a, s'.factor? = some a ∧ Completes e a s.pending s'.pending l

def Leads (l : Level) (ts : List Token) (e : Expr) : Prop :=
  ∀ s : Reading, s.beginsOperand = true → Ready l s.pending →
    ∃ s', reader.reach s ts = some s' ∧ After l e s s'

theorem After.sum? (h : After .sum e s s') : s'.sum? = some e := by
  obtain ⟨a, ha, rfl⟩ := h.operand
  exact sum?_of_factor? ha

theorem reach_close (h : reader.reach s ts = some s') (t : Token) :
    reader.reach s (ts ++ [t]) = s'.step? t := by
  rw [Reader.reach_append_of_reach h, Reader.reach_singleton]
  rfl

theorem reach_arguments {before : Pending} {outer : List Opened} {as bs : List Expr}
    (h : CommaList (Leads .sum) ts bs) :
    reader.reach ⟨.call before f as :: outer, .nothing, .argument⟩ (ts ++ [.mark .closeParen]) =
      some ⟨outer, before, .factor (.call f (as ++ bs))⟩ := by
  induction h generalizing as with
  | nil =>
    rw [List.nil_append, List.append_nil, Reader.reach_singleton]
    rfl
  | last ha =>
    obtain ⟨s', hs', hafter⟩ := ha ⟨.call before f as :: outer, .nothing, .argument⟩ rfl rfl
    rw [reach_close hs', close?_call hafter.opened hafter.sum?]
  | cons ha _ ih =>
    obtain ⟨s', hs', hafter⟩ := ha ⟨.call before f as :: outer, .nothing, .argument⟩ rfl rfl
    have hcomma := step?_comma hafter.opened hafter.sum?
    rw [List.append_assoc, Reader.reach_append_of_reach hs', List.cons_append,
      Reader.reach_cons_of_step hcomma, ih, List.append_assoc, List.singleton_append]

theorem leads_or (ts us : List Token) (a b : Expr) (ha : Leads .sum ts a)
    (hb : Leads .product us b) : Leads .sum (ts ++ .mark .plus :: us) (.or a b) := by
  intro s hs hp
  obtain ⟨s₁, h₁, after₁⟩ := ha s hs hp
  obtain ⟨s₂, h₂, ho, c, hc, hsum, hprod⟩ :=
    hb ⟨s₁.opened, ⟨some a, none, 0⟩, .operand⟩ rfl ⟨rfl, rfl⟩
  refine ⟨s₂, ?_, ho.trans after₁.opened, c, hc, ?_⟩
  · rw [Reader.reach_append_of_reach h₁, Reader.reach_cons_of_step (step?_plus after₁.sum?), h₂]
  · simp only [Completes, Pending.sumWith, hsum, hprod]

theorem leads_product (ts : List Token) (e : Expr) (h : Leads .product ts e) :
    Leads .sum ts e := by
  intro s hs hp
  obtain ⟨s', hs', ho, a, ha, hsum, hprod⟩ := h s hs (by rw [hp]; exact ⟨rfl, rfl⟩)
  refine ⟨s', hs', ho, a, ha, ?_⟩
  rw [hp] at hsum
  simp only [Completes, Pending.sumWith, hsum, Pending.nothing, hprod]

theorem leads_and (ts us : List Token) (a b : Expr) (ha : Leads .product ts a)
    (hb : Leads .factor us b) : Leads .product (ts ++ .mark .times :: us) (.and a b) := by
  intro s hs hp
  obtain ⟨s₁, h₁, ho₁, c, hc, hsum, hprod⟩ := ha s hs hp
  obtain ⟨s₂, h₂, ho₂, d, hd, n, hn, hneg⟩ :=
    hb ⟨s₁.opened, ⟨s₁.pending.sum, some (s₁.pending.productWith c), 0⟩, .operand⟩ rfl trivial
  refine ⟨s₂, ?_, ho₂.trans ho₁, d, hd, ?_, ?_⟩
  · rw [Reader.reach_append_of_reach h₁, Reader.reach_cons_of_step (step?_times hc), h₂]
  · rw [hn]
    exact hsum
  · simp only [hn, Pending.productWith, Nat.zero_add, hneg]
    rw [← hprod, Pending.productWith]

theorem leads_factor (ts : List Token) (e : Expr) (h : Leads .factor ts e) :
    Leads .product ts e := by
  intro s hs hp
  obtain ⟨s', hs', ho, a, ha, n, hn, hneg⟩ := h s hs trivial
  refine ⟨s', hs', ho, a, ha, by rw [hn], ?_⟩
  simp only [hn, Pending.productWith, hp.1, hp.2, Nat.zero_add, hneg]

theorem leads_not (ts : List Token) (b : Expr) (h : Leads .factor ts b) :
    Leads .factor (.mark .negate :: ts) (.not b) := by
  intro s hs _
  obtain ⟨s', hs', ho, a, ha, n, hn, hneg⟩ :=
    h ⟨s.opened, { s.pending with negations := s.pending.negations + 1 }, .operand⟩ rfl trivial
  refine ⟨s', ?_, ho, a, ha, n + 1, ?_, congrArg Expr.not hneg⟩
  · rw [Reader.reach_cons_of_step (step?_negate hs), hs']
  · simp only [hn, Nat.add_assoc, Nat.add_comm 1 n]

theorem leads_atom (ts : List Token) (e : Expr) (h : Leads .atom ts e) : Leads .factor ts e := by
  intro s hs _
  obtain ⟨s', hs', ho, a, ha, hp, rfl⟩ := h s hs trivial
  exact ⟨s', hs', ho, a, ha, 0, hp, rfl⟩

theorem leads_signal (x : Name) : Leads .atom [.name x] (.signal x) := by
  intro s hs _
  refine ⟨{ s with cursor := .name x }, ?_, rfl, _, rfl, rfl, rfl⟩
  rw [Reader.reach_singleton]
  exact step?_name hs x

theorem leads_call (f : Name) (ts : List Token) (as : List Expr)
    (h : CommaList (Leads .sum) ts as) :
    Leads .atom (.name f :: .mark .openParen :: (ts ++ [.mark .closeParen])) (.call f as) := by
  intro s hs _
  refine ⟨⟨s.opened, s.pending, .factor (.call f as)⟩, ?_, rfl, _, rfl, rfl, rfl⟩
  have hopen : ({ s with cursor := .name f } : Reading).step? (.mark .openParen) =
      some ⟨.call s.pending f [] :: s.opened, .nothing, .argument⟩ := rfl
  rw [Reader.reach_cons_of_step (step?_name hs f), Reader.reach_cons_of_step hopen,
    reach_arguments h, List.nil_append]

theorem leads_group (ts : List Token) (e : Expr) (h : Leads .sum ts e) :
    Leads .atom (.mark .openParen :: (ts ++ [.mark .closeParen])) e := by
  intro s hs _
  obtain ⟨s', hs', after⟩ := h ⟨.group s.pending :: s.opened, .nothing, .operand⟩ rfl rfl
  refine ⟨⟨s.opened, s.pending, .factor e⟩, ?_, rfl, _, rfl, rfl, rfl⟩
  rw [Reader.reach_cons_of_step (step?_openParen hs), reach_close hs',
    close?_group after.opened after.sum?]

/-- Every phrase can be read wherever an operand can begin and nothing before it binds tighter. -/
theorem leads_of_phrase {l : Level} (h : Phrase l ts e) : Leads l ts e :=
  Phrase.induct leads_or leads_product leads_and leads_factor leads_not leads_atom leads_signal
    leads_call leads_group h

theorem reach_of_phrase (h : Phrase .sum ts e) :
    ∃ s, reader.reach .start ts = some s ∧ s.result = some e := by
  obtain ⟨s, hs, hafter⟩ := leads_of_phrase h .start rfl rfl
  refine ⟨s, hs, ?_⟩
  have ho : s.opened = [] := hafter.opened
  rw [result, ho]
  exact hafter.sum?

end phrases

section prefixes

/-- What stands before an operand on its left: nothing, or a phrase and the operator after it. -/
def LeftOf (l : Level) (m : Mark) (left : Option Expr) (ts : List Token) : Prop :=
  match left with
  | none => ts = []
  | some a => ∃ us, Phrase l us a ∧ ts = us ++ [.mark m]

def Slashes (n : ℕ) : List Token := List.replicate n (.mark .negate)

def PendingOf (p : Pending) (ts : List Token) : Prop :=
  ∃ us vs, LeftOf .sum .plus p.sum us ∧ LeftOf .product .times p.product vs ∧
    ts = us ++ (vs ++ Slashes p.negations)

/-- The tokens up to the innermost open parenthesis, with the arguments that are complete. -/
inductive OpenedOf : List Opened → List Token → Prop where
  | nil : OpenedOf [] []
  | group {outer : List Opened} {before : Pending} {ts us : List Token} :
      OpenedOf outer ts → PendingOf before us →
      OpenedOf (.group before :: outer) (ts ++ (us ++ [.mark .openParen]))
  | call {outer : List Opened} {before : Pending} {f : Name} {as : List Expr}
      {ts us vs : List Token} :
      OpenedOf outer ts → PendingOf before us → Terminated (Phrase .sum) vs as →
      OpenedOf (.call before f as :: outer) (ts ++ (us ++ .name f :: .mark .openParen :: vs))

def CursorOf (s : Reading) (ts : List Token) : Prop :=
  match s.cursor with
  | .operand => ts = []
  | .argument => ts = [] ∧ s.pending = .nothing
  | .name x => ts = [.name x]
  | .factor e => Phrase .atom ts e
  | .sum _ => False

/-- The tokens that have been read when the reader stands in a state. -/
def Follows (ts : List Token) (s : Reading) : Prop :=
  ∃ us vs ws, OpenedOf s.opened us ∧ PendingOf s.pending vs ∧ CursorOf s ws ∧ ts = us ++ (vs ++ ws)

theorem pendingOf_nothing : PendingOf .nothing [] := ⟨[], [], rfl, rfl, rfl⟩

theorem negate_phrase (n : ℕ) (h : Phrase .factor ts a) :
    Phrase .factor (Slashes n ++ ts) (Pending.negate n a) := by
  induction n with
  | zero => exact h
  | succ n ih => exact .not ih

theorem product_phrase {p : Pending} (hl : LeftOf .product .times p.product us)
    (h : Phrase .atom ts a) :
    Phrase .product (us ++ (Slashes p.negations ++ ts)) (p.productWith a) := by
  have hf := negate_phrase p.negations (.atom h)
  unfold Pending.productWith
  cases hp : p.product with
  | none =>
    rw [hp] at hl
    obtain rfl : us = [] := hl
    exact .factor hf
  | some left =>
    rw [hp] at hl
    obtain ⟨vs, hv, rfl⟩ := hl
    rw [List.append_assoc]
    exact .and hv hf

theorem sum_phrase {p : Pending} (hp : PendingOf p us) (h : Phrase .atom ts a) :
    Phrase .sum (us ++ ts) (p.sumWith a) := by
  obtain ⟨us, vs, hs, hl, rfl⟩ := hp
  have hprod := product_phrase hl h
  unfold Pending.sumWith
  simp only [List.append_assoc]
  cases hsum : p.sum with
  | none =>
    rw [hsum] at hs
    obtain rfl : us = [] := hs
    exact .product hprod
  | some left =>
    rw [hsum] at hs
    obtain ⟨ws, hw, rfl⟩ := hs
    rw [List.append_assoc]
    exact .or hw hprod

theorem Follows.factor? (h : Follows ts s) (ha : s.factor? = some a) : ∃ us vs ws,
    OpenedOf s.opened us ∧ PendingOf s.pending vs ∧ Phrase .atom ws a ∧ ts = us ++ (vs ++ ws) := by
  obtain ⟨us, vs, ws, ho, hp, hc, rfl⟩ := h
  refine ⟨us, vs, ws, ho, hp, ?_, rfl⟩
  obtain ⟨opened, pending, cursor⟩ := s
  cases cursor with
  | name x =>
    obtain rfl := Option.some.inj ha
    obtain rfl : ws = [.name x] := hc
    exact .signal x
  | factor e =>
    obtain rfl := Option.some.inj ha
    exact hc
  | operand => cases ha
  | argument => cases ha
  | sum e => cases ha

theorem Follows.sum? (h : Follows ts s) (he : s.sum? = some e) : ∃ us vs,
    OpenedOf s.opened us ∧ Phrase .sum vs e ∧ ts = us ++ vs := by
  have hfactor : ∃ a, s.factor? = some a ∧ s.pending.sumWith a = e := by
    obtain ⟨opened, pending, cursor⟩ := s
    cases cursor with
    | name x => exact ⟨_, rfl, Option.some.inj he⟩
    | factor a => exact ⟨_, rfl, Option.some.inj he⟩
    | operand => cases he
    | argument => cases he
    | sum b =>
      obtain ⟨_, _, _, _, _, hc, _⟩ := h
      exact hc.elim
  obtain ⟨a, ha, rfl⟩ := hfactor
  obtain ⟨us, vs, ws, ho, hp, hatom, rfl⟩ := h.factor? ha
  exact ⟨us, vs ++ ws, ho, sum_phrase hp hatom, rfl⟩

theorem Follows.beginsOperand (h : Follows ts s) (hb : s.beginsOperand = true) : ∃ us vs,
    OpenedOf s.opened us ∧ PendingOf s.pending vs ∧ ts = us ++ vs := by
  obtain ⟨us, vs, ws, ho, hp, hc, rfl⟩ := h
  refine ⟨us, vs, ho, hp, ?_⟩
  obtain ⟨opened, pending, cursor⟩ := s
  cases cursor with
  | operand =>
    obtain rfl : ws = [] := hc
    rw [List.append_nil]
  | argument =>
    obtain ⟨rfl, -⟩ : ws = [] ∧ _ := hc
    rw [List.append_nil]
  | name x => cases hb
  | factor e => cases hb
  | sum e => cases hb

theorem follows_opened {opened : List Opened} {c : Cursor} (h : OpenedOf opened ts)
    (hc : c = .operand ∨ c = .argument) : Follows ts ⟨opened, .nothing, c⟩ := by
  refine ⟨ts, [], [], h, pendingOf_nothing, ?_, by simp⟩
  rcases hc with rfl | rfl
  · rfl
  · exact ⟨rfl, rfl⟩

theorem follows_factor {outer : List Opened} {before : Pending} {vs : List Token}
    (ho : OpenedOf outer us) (hp : PendingOf before vs) (ha : Phrase .atom ts e) :
    Follows (us ++ (vs ++ ts)) ⟨outer, before, .factor e⟩ :=
  ⟨us, vs, ts, ho, hp, ha, rfl⟩

theorem follows_of_name (h : Follows ts s) (hs : s.step? (.name x) = some s') :
    Follows (ts ++ [.name x]) s' := by
  simp only [step?] at hs
  split at hs
  · next hb =>
    obtain rfl := Option.some.inj hs
    obtain ⟨us, vs, ho, hp, rfl⟩ := h.beginsOperand hb
    exact ⟨us, vs, [.name x], ho, hp, rfl, List.append_assoc _ _ _⟩
  · cases hs

theorem follows_of_negate (h : Follows ts s) (hs : s.step? (.mark .negate) = some s') :
    Follows (ts ++ [.mark .negate]) s' := by
  simp only [step?] at hs
  split at hs
  · next hb =>
    obtain rfl := Option.some.inj hs
    obtain ⟨us, vs, ho, ⟨vs, ws, hsum, hprod, rfl⟩, rfl⟩ := h.beginsOperand hb
    refine ⟨us, _, [], ho, ⟨vs, ws, hsum, hprod, rfl⟩, rfl, ?_⟩
    simp [Slashes, List.replicate_succ']
  · cases hs

theorem follows_of_openParen (h : Follows ts s) (hs : s.step? (.mark .openParen) = some s') :
    Follows (ts ++ [.mark .openParen]) s' := by
  by_cases hb : s.beginsOperand = true
  · obtain rfl := Option.some.inj ((step?_openParen hb).symm.trans hs)
    obtain ⟨us, vs, ho, hp, rfl⟩ := h.beginsOperand hb
    have hgroup := follows_opened (OpenedOf.group ho hp) (Or.inl rfl)
    rwa [← List.append_assoc] at hgroup
  · obtain ⟨opened, pending, cursor⟩ := s
    cases cursor with
    | name f =>
      obtain rfl := Option.some.inj hs
      obtain ⟨us, vs, ws, ho, hp, hc, rfl⟩ := h
      obtain rfl : ws = [.name f] := hc
      have hcall := follows_opened (OpenedOf.call (f := f) ho hp .nil) (Or.inr rfl)
      simpa using hcall
    | operand => exact absurd rfl hb
    | argument => exact absurd rfl hb
    | factor e => cases hs
    | sum e => cases hs

theorem follows_of_times (h : Follows ts s) (hs : s.step? (.mark .times) = some s') :
    Follows (ts ++ [.mark .times]) s' := by
  obtain ⟨a, ha, rfl⟩ := Option.map_eq_some_iff.mp hs
  obtain ⟨us, vs, ws, ho, ⟨vs, xs, hsum, hprod, rfl⟩, hatom, rfl⟩ := h.factor? ha
  have hp := product_phrase hprod hatom
  refine ⟨us, _, [], ho, ⟨vs, _, hsum, ⟨_, hp, rfl⟩, rfl⟩, rfl, ?_⟩
  simp [Slashes]

theorem follows_of_plus (h : Follows ts s) (hs : s.step? (.mark .plus) = some s') :
    Follows (ts ++ [.mark .plus]) s' := by
  obtain ⟨a, ha, rfl⟩ := Option.map_eq_some_iff.mp hs
  obtain ⟨us, vs, ho, hsum, rfl⟩ := h.sum? ha
  refine ⟨us, _, [], ho, ⟨_, [], ⟨vs, hsum, rfl⟩, rfl, rfl⟩, rfl, ?_⟩
  simp [Slashes]

theorem follows_of_comma (h : Follows ts s) (hs : s.step? (.mark .comma) = some s') :
    Follows (ts ++ [.mark .comma]) s' := by
  simp only [step?] at hs
  split at hs
  · next before f as outer hopened =>
    obtain ⟨a, ha, rfl⟩ := Option.map_eq_some_iff.mp hs
    obtain ⟨us, vs, ho, hsum, rfl⟩ := h.sum? ha
    rw [hopened] at ho
    cases ho with
    | call ho hp has =>
      have hcall := follows_opened (OpenedOf.call (f := f) ho hp (has.concat hsum)) (Or.inr rfl)
      simpa using hcall
  · cases hs

theorem follows_of_closeParen (h : Follows ts s) (hs : s.step? (.mark .closeParen) = some s') :
    Follows (ts ++ [.mark .closeParen]) s' := by
  simp only [step?, close?] at hs
  split at hs
  · cases hs
  · next before f as outer hopened hcursor =>
    obtain rfl := Option.some.inj hs
    obtain ⟨us, vs, ws, ho, hp, hc, rfl⟩ := h
    rw [CursorOf, hcursor] at hc
    obtain ⟨rfl, hpending⟩ := hc
    rw [hpending] at hp
    obtain ⟨_, _, rfl, rfl, rfl⟩ := hp
    rw [hopened] at ho
    cases ho with
    | call ho hp has =>
      have hcall := follows_factor ho hp (.call f has.commaList)
      simpa [Slashes, Pending.nothing] using hcall
  · next before f as outer hopened _ =>
    obtain ⟨a, ha, rfl⟩ := Option.map_eq_some_iff.mp hs
    obtain ⟨us, vs, ho, hsum, rfl⟩ := h.sum? ha
    rw [hopened] at ho
    cases ho with
    | call ho hp has =>
      have hcall := follows_factor ho hp (.call f (has.append (.last hsum)))
      simpa using hcall
  · next before outer hopened =>
    obtain ⟨a, ha, rfl⟩ := Option.map_eq_some_iff.mp hs
    obtain ⟨us, vs, ho, hsum, rfl⟩ := h.sum? ha
    rw [hopened] at ho
    cases ho with
    | group ho hp =>
      have hgroup := follows_factor ho hp (.group hsum)
      simpa using hgroup

theorem follows_step (h : Follows ts s) (hs : s.step? t = some s') : Follows (ts ++ [t]) s' := by
  cases t with
  | name x => exact follows_of_name h hs
  | bits values => cases hs
  | mark m =>
    cases m with
    | negate => exact follows_of_negate h hs
    | openParen => exact follows_of_openParen h hs
    | closeParen => exact follows_of_closeParen h hs
    | times => exact follows_of_times h hs
    | plus => exact follows_of_plus h hs
    | comma => exact follows_of_comma h hs
    | define => cases hs
    | hardware => cases hs
    | inputs => cases hs
    | latches => cases hs
    | outputs => cases hs
    | simulate => cases hs
    | update => cases hs
    | equals => cases hs

theorem follows_start : Follows [] .start :=
  ⟨[], [], [], .nil, pendingOf_nothing, rfl, rfl⟩

theorem follows_of_reach (h : reader.reach .start ts = some s) : Follows ts s :=
  Reader.reach_invariant follows_start (fun _ _ _ _ => follows_step) h

theorem Follows.result (h : Follows ts s) (he : s.result = some e) : Phrase .sum ts e := by
  unfold Reading.result at he
  split at he
  · next hopened =>
    obtain ⟨us, vs, ho, hsum, rfl⟩ := h.sum? he
    rw [hopened] at ho
    cases ho with
    | nil => exact hsum
  · cases he

end prefixes

section completion

theorem exists_result_of_sum? (he : s.sum? = some e) :
    ∃ n s' b, reader.reach s (List.replicate n (.mark .closeParen)) = some s' ∧
      s'.result = some b := by
  induction hopened : s.opened generalizing s e with
  | nil => exact ⟨0, s, e, rfl, by rw [result, hopened]; exact he⟩
  | cons o outer ih =>
    obtain ⟨before, a, hclose⟩ : ∃ before a,
        s.step? (.mark .closeParen) = some ⟨outer, before, .factor a⟩ := by
      cases o with
      | group before => exact ⟨_, _, close?_group hopened he⟩
      | call before f as => exact ⟨_, _, close?_call hopened he⟩
    obtain ⟨n, s', b, hs', hb⟩ := ih (s := ⟨outer, before, .factor a⟩) rfl rfl
    refine ⟨n + 1, s', b, ?_, hb⟩
    rw [List.replicate_succ, Reader.reach_cons_of_step hclose, hs']

/-- No state is a dead end: an operand and closing parentheses complete the expression. -/
theorem exists_result (s : Reading) :
    ∃ ts s' e, reader.reach s ts = some s' ∧ s'.result = some e := by
  by_cases hb : s.beginsOperand = true
  · have hname := step?_name hb "_"
    obtain ⟨n, s', e, hs', he⟩ :=
      exists_result_of_sum? (s := { s with cursor := .name "_" }) rfl
    refine ⟨.name "_" :: List.replicate n (.mark .closeParen), s', e, ?_, he⟩
    rw [Reader.reach_cons_of_step hname, hs']
  · obtain ⟨e, he⟩ : ∃ e, s.sum? = some e := by
      obtain ⟨opened, pending, cursor⟩ := s
      cases cursor <;> first | exact ⟨_, rfl⟩ | exact absurd rfl hb
    obtain ⟨n, s', b, hs', hb⟩ := exists_result_of_sum? he
    exact ⟨_, s', b, hs', hb⟩

end completion

end Reading

theorem phrase_iff {ts : List Token} {e : Expr} : Phrase .sum ts e ↔
    ∃ s, reader.reach .start ts = some s ∧ s.result = some e := by
  constructor
  · exact Reading.reach_of_phrase
  · rintro ⟨s, hs, he⟩
    exact (Reading.follows_of_reach hs).result he

theorem reader_recognizes : reader.Recognizes (Phrase .sum) where
  value _ _ := phrase_iff
  completable _ s _ := s.exists_result

end Expr

end SyncCircuit
