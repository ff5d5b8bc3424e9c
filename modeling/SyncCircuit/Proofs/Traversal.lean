import Mathlib.Data.List.Lex
import Mathlib.Data.Nat.Notation
import SyncCircuit.Expr.Basic

/-!
The order in which the subexpressions of an expression are visited. A subexpression has an address,
the operands to take on the way to it, and the addresses are passed in lexicographic order: an
expression comes before its operands, and all of an operand before the next one. The nodes in this
order, which tell how many operands each has, are enough to rebuild the expression.
-/

namespace SyncCircuit

namespace Expr

variable {a b e : Expr} {as bs : List Expr} {r s : List Node}

/-- The operand to take at each step, counted from zero. -/
abbrev Address := List ℕ

def operands : Expr → List Expr
  | signal _ => []
  | and a b => [a, b]
  | or a b => [a, b]
  | not a => [a]
  | call _ as => as

def at? : Expr → Address → Option Expr
  | e, [] => some e
  | e, i :: w => e.operands[i]?.bind fun a => at? a w

/-- The addresses within operands, of which the first is operand `i` and the others follow. -/
def within (i : ℕ) : List (List Address) → List Address
  | [] => []
  | ws :: wss => ws.map (i :: ·) ++ within (i + 1) wss

def addresses : Expr → List Address :=
  fold {
    signal := fun _ => [[]]
    and := fun a b => [] :: within 0 [a, b]
    or := fun a b => [] :: within 0 [a, b]
    not := fun a => [] :: within 0 [a]
    call := fun _ as => [] :: within 0 as }

def subexpressions (e : Expr) : List Expr := e.addresses.filterMap e.at?

theorem induct_operands {motive : Expr → Prop}
    (h : ∀ e, (∀ a ∈ e.operands, motive a) → motive e) (e : Expr) : motive e := by
  induction e using Expr.induct with
  | signal x => exact h _ (by simp [operands])
  | and a b ha hb => exact h _ (by simp [operands, ha, hb])
  | or a b ha hb => exact h _ (by simp [operands, ha, hb])
  | not a ha => exact h _ (by simp [operands, ha])
  | call f as has => exact h _ has

theorem addresses_eq (e : Expr) : e.addresses = [] :: within 0 (e.operands.map addresses) := by
  cases e <;> simp [addresses, fold, foldAll_eq_map, operands, within]

theorem visit_eq {σ : Type} (callback : σ → Expr → σ) (s : σ) (e : Expr) :
    e.visit callback s = e.operands.foldl (visit callback) (callback s e) := by
  cases e <;> simp [visit, operands, visitAll_eq_foldl]

theorem nodes_eq (e : Expr) : e.nodes = e.node :: e.operands.flatMap nodes := by
  cases e <;> simp [node, operands]

section within

variable {i : ℕ} {w : Address} {ws : List Address} {wss : List (List Address)}

theorem mem_within :
    w ∈ within i wss ↔ ∃ j v ws, w = (i + j) :: v ∧ wss[j]? = some ws ∧ v ∈ ws := by
  induction wss generalizing i with
  | nil => simp [within]
  | cons ws wss ih =>
    rw [within, List.mem_append, List.mem_map, ih]
    constructor
    · rintro (⟨v, hv, rfl⟩ | ⟨j, v, us, rfl, hj, hv⟩)
      · exact ⟨0, v, ws, rfl, rfl, hv⟩
      · exact ⟨j + 1, v, us, by rw [Nat.add_right_comm, Nat.add_assoc], hj, hv⟩
    · rintro ⟨j, v, us, rfl, hj, hv⟩
      cases j with
      | zero =>
        obtain rfl : ws = us := Option.some.inj hj
        exact .inl ⟨v, hv, rfl⟩
      | succ j => exact .inr ⟨j, v, us, by rw [Nat.add_right_comm, Nat.add_assoc], hj, hv⟩

theorem pairwise_within (h : ∀ ws ∈ wss, ws.Pairwise (· < ·)) :
    (within i wss).Pairwise (· < ·) := by
  induction wss generalizing i with
  | nil => exact .nil
  | cons ws wss ih =>
    obtain ⟨hws, hwss⟩ := List.forall_mem_cons.mp h
    rw [within, List.pairwise_append]
    refine ⟨List.pairwise_map.mpr (hws.imp fun hlt => List.Lex.cons hlt), ih hwss, ?_⟩
    intro v hv u hu
    obtain ⟨v, -, rfl⟩ := List.mem_map.mp hv
    obtain ⟨j, u, us, rfl, -, -⟩ := mem_within.mp hu
    exact List.Lex.rel (by omega)

theorem filterMap_within (h : ∀ j, e.operands[i + j]? = as[j]?) :
    (within i (as.map addresses)).filterMap e.at? = as.flatMap subexpressions := by
  induction as generalizing i with
  | nil => rfl
  | cons a as ih =>
    have hrest : ∀ j, e.operands[i + 1 + j]? = as[j]? := by
      intro j
      rw [Nat.add_right_comm, Nat.add_assoc, h (j + 1), List.getElem?_cons_succ]
    have hfirst : ∀ w, e.at? (i :: w) = a.at? w := by
      intro w
      have hi : e.operands[i]? = some a := h 0
      rw [at?, hi, Option.bind_some]
    rw [List.map_cons, within, List.filterMap_append, ih hrest, List.flatMap_cons,
      List.filterMap_map]
    exact congrArg (· ++ _) (congrArg (List.filterMap · _) (funext hfirst))

end within

/-- Each address is passed after those of which it is a continuation, and before those that turn to
a later operand. -/
theorem pairwise_addresses (e : Expr) : e.addresses.Pairwise (· < ·) := by
  induction e using induct_operands with
  | h e ih =>
    rw [addresses_eq, List.pairwise_cons]
    refine ⟨fun w hw => ?_, pairwise_within (List.forall_mem_map.mpr ih)⟩
    obtain ⟨j, v, ws, rfl, -, -⟩ := mem_within.mp hw
    exact List.Lex.nil

example : addresses (.and (.not (.signal "A")) (.call "f" [.signal "B"])) =
    [[], [0], [0, 0], [1], [1, 0]] := rfl

theorem mem_addresses {w : Address} : w ∈ e.addresses ↔ (e.at? w).isSome := by
  induction w generalizing e with
  | nil => simp [addresses_eq, at?]
  | cons i w ih =>
    rw [addresses_eq, List.mem_cons, mem_within, at?]
    cases hi : e.operands[i]? with
    | none => simp [List.getElem?_map, hi]
    | some a => simp [List.getElem?_map, hi, ← ih]

theorem subexpressions_eq (e : Expr) :
    e.subexpressions = e :: e.operands.flatMap subexpressions := by
  have hbelow : (within 0 (e.operands.map addresses)).filterMap e.at? =
      e.operands.flatMap subexpressions := filterMap_within fun j => by rw [Nat.zero_add]
  have hself : e.at? [] = some e := rfl
  rw [subexpressions, addresses_eq, List.filterMap_cons_some hself, hbelow]

theorem visit_eq_foldl {σ : Type} (callback : σ → Expr → σ) (s : σ) (e : Expr) :
    e.visit callback s = e.subexpressions.foldl callback s := by
  induction e using induct_operands generalizing s with
  | h e ih =>
    rw [visit_eq, subexpressions_eq, List.foldl_cons, List.foldl_flatMap]
    exact List.foldl_ext _ _ _ fun s a ha => ih a ha s

theorem nodes_eq_map (e : Expr) : e.nodes = e.subexpressions.map node := by
  induction e using induct_operands with
  | h e ih =>
    rw [nodes_eq, subexpressions_eq, List.map_cons, List.map_flatMap]
    exact congrArg (e.node :: ·) (List.flatMap_congr ih)

theorem length_operands_of_node (h : a.node = b.node) : a.operands.length = b.operands.length := by
  cases a <;> cases b <;> simp_all [node, operands]

theorem eq_of_node_of_operands (h : a.node = b.node) (ho : a.operands = b.operands) : a = b := by
  cases a <;> cases b <;> simp_all [node, operands]

theorem flatMap_nodes_inj
    (h : ∀ a ∈ as, ∀ b r s, a.nodes ++ r = b.nodes ++ s → a = b ∧ r = s)
    (hlen : as.length = bs.length) (heq : as.flatMap nodes ++ r = bs.flatMap nodes ++ s) :
    as = bs ∧ r = s := by
  induction as generalizing bs with
  | nil =>
    obtain rfl : bs = [] := List.length_eq_zero_iff.mp hlen.symm
    exact ⟨rfl, heq⟩
  | cons a as ih =>
    obtain ⟨ha, has⟩ := List.forall_mem_cons.mp h
    cases bs with
    | nil => cases hlen
    | cons b bs =>
      rw [List.flatMap_cons, List.flatMap_cons, List.append_assoc, List.append_assoc] at heq
      obtain ⟨rfl, htail⟩ := ha b _ _ heq
      obtain ⟨rfl, rfl⟩ := ih has (Nat.succ.inj hlen) htail
      exact ⟨rfl, rfl⟩

/-- The nodes of an expression end where it ends, whatever nodes come after them. -/
theorem nodes_append_inj (h : a.nodes ++ r = b.nodes ++ s) : a = b ∧ r = s := by
  induction a using induct_operands generalizing b r s with
  | h a ih =>
    rw [nodes_eq, nodes_eq b, List.cons_append, List.cons_append] at h
    obtain ⟨hnode, hbelow⟩ := List.cons.inj h
    obtain ⟨hoperands, rfl⟩ :=
      flatMap_nodes_inj (fun c hc _ _ _ => ih c hc) (length_operands_of_node hnode) hbelow
    exact ⟨eq_of_node_of_operands hnode hoperands, rfl⟩

/-- A visit calls the callback once for each address at which there is a subexpression, in the order
of the addresses; a callback that notes down the nodes gets the list of them; and no other
expression has the same list. -/
theorem visit_exact (e : Expr) :
    e.addresses.Pairwise (· < ·) ∧ (∀ w, w ∈ e.addresses ↔ (e.at? w).isSome) ∧
      (∀ (σ : Type) (callback : σ → Expr → σ) (s : σ),
        e.visit callback s = (e.addresses.filterMap e.at?).foldl callback s) ∧
      e.visit (fun noted a => noted ++ [a.node]) [] = e.nodes ∧
      ∀ b : Expr, e.nodes = b.nodes ↔ e = b := by
  refine ⟨pairwise_addresses e, fun _ => mem_addresses, fun _ callback s =>
    visit_eq_foldl callback s e, ?_, fun b => ⟨fun h => ?_, fun h => congrArg nodes h⟩⟩
  · rw [visit_eq_foldl, nodes_eq_map, List.map_eq_flatMap, List.flatMap_eq_foldl]
  · exact (nodes_append_inj (r := []) (s := []) (congrArg (· ++ []) h)).1

end Expr

end SyncCircuit
