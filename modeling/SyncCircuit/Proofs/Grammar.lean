import Mathlib.Data.List.Basic
import SyncCircuit.Program.Basic
import SyncCircuit.Token

/-!
The grammar of circuit descriptions: which sequences of tokens are phrases of each kind, and what
they mean. Each constructor is a production; repetition and lists with commas are operators on
phrases.
-/

namespace SyncCircuit

namespace Grammar

variable {α : Type}

inductive Repeated (P : List Token → α → Prop) : List Token → List α → Prop where
  | nil : Repeated P [] []
  | cons {ts us : List Token} {a : α} {as : List α} :
      P ts a → Repeated P us as → Repeated P (ts ++ us) (a :: as)

/-- Any number of phrases with a comma after each, which the last one need not have. -/
inductive CommaList (P : List Token → α → Prop) : List Token → List α → Prop where
  | nil : CommaList P [] []
  | last {ts : List Token} {a : α} : P ts a → CommaList P ts [a]
  | cons {ts us : List Token} {a : α} {as : List α} :
      P ts a → CommaList P us as → CommaList P (ts ++ .mark .comma :: us) (a :: as)

def Ident (ts : List Token) (x : Name) : Prop := ts = [.name x]

/-- The kinds of expressions, from the loosest to the tightest. -/
inductive Level where
  | sum
  | product
  | factor
  | atom
deriving DecidableEq

inductive Phrase : Level → List Token → Expr → Prop where
  | or {ts us : List Token} {a b : Expr} : Phrase .sum ts a → Phrase .product us b →
      Phrase .sum (ts ++ .mark .plus :: us) (.or a b)
  | product {ts : List Token} {e : Expr} : Phrase .product ts e → Phrase .sum ts e
  | and {ts us : List Token} {a b : Expr} : Phrase .product ts a → Phrase .factor us b →
      Phrase .product (ts ++ .mark .times :: us) (.and a b)
  | factor {ts : List Token} {e : Expr} : Phrase .factor ts e → Phrase .product ts e
  | not {ts : List Token} {a : Expr} : Phrase .factor ts a →
      Phrase .factor (.mark .negate :: ts) (.not a)
  | atom {ts : List Token} {e : Expr} : Phrase .atom ts e → Phrase .factor ts e
  | signal (x : Name) : Phrase .atom [.name x] (.signal x)
  | call (f : Name) {ts : List Token} {as : List Expr} : CommaList (Phrase .sum) ts as →
      Phrase .atom (.name f :: .mark .openParen :: (ts ++ [.mark .closeParen])) (.call f as)
  | group {ts : List Token} {e : Expr} : Phrase .sum ts e →
      Phrase .atom (.mark .openParen :: (ts ++ [.mark .closeParen])) e

inductive Def : List Token → Definition → Prop where
  | mk (f : Name) {ts us : List Token} {xs : List Name} {e : Expr} : CommaList Ident ts xs →
      Phrase .sum us e →
      Def (.mark .define :: .name f :: .mark .openParen ::
        (ts ++ .mark .closeParen :: .mark .equals :: us)) ⟨f, xs, e⟩

inductive Equation : List Token → Update → Prop where
  | mk (x : Name) {ts : List Token} {e : Expr} : Phrase .sum ts e →
      Equation (.name x :: .mark .equals :: ts) ⟨x, e⟩

/-- The bits that drive an input, as the trace that their text denotes. -/
inductive Stimulus : List Token → Trace → Prop where
  | mk (x : Name) (values : List Bool) {tr : Trace} :
      Trace.ofBits x (Token.bits values).text = .ok tr →
      Stimulus [.name x, .mark .equals, .bits values] tr

inductive Latches : List Token → List Name → Prop where
  | missing : Latches [] []
  | present {ts : List Token} {xs : List Name} : Repeated Ident ts xs →
      Latches (.mark .latches :: ts) xs

inductive Description : List Token → Program → Prop where
  | mk (x : Name) {is os ls ds us ss : List Token} {inputs outputs latches : List Name}
      {definitions : List Definition} {updates : List Update} {stimuli : List Trace} :
      Repeated Ident is inputs → Repeated Ident os outputs → Latches ls latches →
      Repeated Def ds definitions → Repeated Equation us updates → Repeated Stimulus ss stimuli →
      Description
        ([.mark .hardware, .name x, .mark .inputs] ++ is ++ .mark .outputs :: os ++ ls ++ ds ++
          .mark .update :: us ++ .mark .simulate :: ss)
        ⟨x, inputs, outputs, latches, definitions, updates, stimuli⟩

section operators

variable {P : List Token → α → Prop} {ts us : List Token} {a : α} {as bs : List α}

theorem Repeated.append (h : Repeated P ts as) (k : Repeated P us bs) :
    Repeated P (ts ++ us) (as ++ bs) := by
  induction h with
  | nil => exact k
  | cons ha _ ih =>
    rw [List.append_assoc]
    exact .cons ha ih

theorem Repeated.singleton (h : P ts a) : Repeated P ts [a] := by
  have hr := Repeated.cons h .nil
  rwa [List.append_nil] at hr

theorem Repeated.concat (h : Repeated P ts as) (ha : P us a) :
    Repeated P (ts ++ us) (as ++ [a]) :=
  h.append (.singleton ha)

theorem Repeated.exists_phrase (h : Repeated P ts as) : ∀ a ∈ as, ∃ us, us <:+: ts ∧ P us a := by
  induction h with
  | nil => simp
  | @cons ts us a as ha _ ih =>
    refine List.forall_mem_cons.mpr ⟨⟨ts, (List.prefix_append ts us).isInfix, ha⟩, fun b hb => ?_⟩
    obtain ⟨vs, hvs, hb⟩ := ih b hb
    exact ⟨vs, hvs.trans (List.suffix_append ts us).isInfix, hb⟩

/-- Phrases with a comma after each. -/
def Terminated (P : List Token → α → Prop) : List Token → List α → Prop :=
  Repeated fun ts a => ∃ us, P us a ∧ ts = us ++ [.mark .comma]

theorem Terminated.concat (h : Terminated P ts as) (ha : P us a) :
    Terminated P (ts ++ (us ++ [.mark .comma])) (as ++ [a]) :=
  Repeated.concat h ⟨us, ha, rfl⟩

theorem Terminated.append (h : Terminated P ts as) (k : CommaList P us bs) :
    CommaList P (ts ++ us) (as ++ bs) := by
  induction h with
  | nil => exact k
  | cons ha _ ih =>
    obtain ⟨vs, ha, rfl⟩ := ha
    simp only [List.append_assoc, List.singleton_append]
    exact .cons ha ih

theorem Terminated.commaList (h : Terminated P ts as) : CommaList P ts as := by
  have hc := h.append .nil
  rwa [List.append_nil, List.append_nil] at hc

end operators

@[elab_as_elim]
theorem Phrase.induct {motive : Level → List Token → Expr → Prop}
    (or : ∀ ts us a b, motive .sum ts a → motive .product us b →
      motive .sum (ts ++ .mark .plus :: us) (.or a b))
    (product : ∀ ts e, motive .product ts e → motive .sum ts e)
    (and : ∀ ts us a b, motive .product ts a → motive .factor us b →
      motive .product (ts ++ .mark .times :: us) (.and a b))
    (factor : ∀ ts e, motive .factor ts e → motive .product ts e)
    (not : ∀ ts a, motive .factor ts a → motive .factor (.mark .negate :: ts) (.not a))
    (atom : ∀ ts e, motive .atom ts e → motive .factor ts e)
    (signal : ∀ x, motive .atom [.name x] (.signal x))
    (call : ∀ f ts as, CommaList (motive .sum) ts as →
      motive .atom (.name f :: .mark .openParen :: (ts ++ [.mark .closeParen])) (.call f as))
    (group : ∀ ts e, motive .sum ts e →
      motive .atom (.mark .openParen :: (ts ++ [.mark .closeParen])) e)
    {l : Level} {ts : List Token} {e : Expr} (h : Phrase l ts e) : motive l ts e := by
  refine @Phrase.rec (fun l ts e _ => motive l ts e)
    (fun ts as _ => CommaList (motive .sum) ts as) ?_ ?_ ?_ ?_ ?_ ?_ signal ?_ ?_ .nil ?_ ?_
    l ts e h
  · exact fun _ _ => or _ _ _ _
  · exact fun _ => product _ _
  · exact fun _ _ => and _ _ _ _
  · exact fun _ => factor _ _
  · exact fun _ => not _ _
  · exact fun _ => atom _ _
  · exact fun f _ _ _ => call f _ _
  · exact fun _ => group _ _
  · exact fun _ => .last
  · exact fun _ _ => .cons

end Grammar

end SyncCircuit
