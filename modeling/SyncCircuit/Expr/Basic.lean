import Std.Data.ExtTreeSet
import SyncCircuit.Signal
import SyncCircuit.Text.Pieces

/-!
Boolean expressions over one-bit signals, the fold through which they are listed and written, the
names they read and their text.
-/

namespace SyncCircuit

inductive Expr where
  | signal (name : Name)
  | and (left right : Expr)
  | or (left right : Expr)
  | not (operand : Expr)
  | call (function : Name) (arguments : List Expr)

namespace Expr

mutual

def decEq : (a b : Expr) → Decidable (a = b)
  | signal x, signal y => decidable_of_iff (x = y) (by simp)
  | and a b, and c d =>
    match decEq a c, decEq b d with
    | isTrue h, isTrue k => isTrue (h ▸ k ▸ rfl)
    | isFalse h, _ => isFalse fun e => h (and.inj e).1
    | _, isFalse k => isFalse fun e => k (and.inj e).2
  | or a b, or c d =>
    match decEq a c, decEq b d with
    | isTrue h, isTrue k => isTrue (h ▸ k ▸ rfl)
    | isFalse h, _ => isFalse fun e => h (or.inj e).1
    | _, isFalse k => isFalse fun e => k (or.inj e).2
  | not a, not b =>
    match decEq a b with
    | isTrue h => isTrue (h ▸ rfl)
    | isFalse h => isFalse fun e => h (not.inj e)
  | call f as, call g bs =>
    if h : f = g then
      match decEqList as bs with
      | isTrue k => isTrue (h ▸ k ▸ rfl)
      | isFalse k => isFalse fun e => k (call.inj e).2
    else isFalse fun e => h (call.inj e).1
  | signal _, and _ _ | signal _, or _ _ | signal _, not _ | signal _, call _ _
  | and _ _, signal _ | and _ _, or _ _ | and _ _, not _ | and _ _, call _ _
  | or _ _, signal _ | or _ _, and _ _ | or _ _, not _ | or _ _, call _ _
  | not _, signal _ | not _, and _ _ | not _, or _ _ | not _, call _ _
  | call _ _, signal _ | call _ _, and _ _ | call _ _, or _ _ | call _ _, not _ =>
    isFalse nofun

def decEqList : (as bs : List Expr) → Decidable (as = bs)
  | [], [] => isTrue rfl
  | a :: as, b :: bs =>
    match decEq a b, decEqList as bs with
    | isTrue h, isTrue k => isTrue (h ▸ k ▸ rfl)
    | isFalse h, _ => isFalse fun e => h (List.cons.inj e).1
    | _, isFalse k => isFalse fun e => k (List.cons.inj e).2
  | [], _ :: _ | _ :: _, [] => isFalse nofun

end

instance : DecidableEq Expr := decEq

/-- What to make of each kind of node, given what was made of its operands. -/
structure Algebra (α : Type) where
  signal : Name → α
  and : α → α → α
  or : α → α → α
  not : α → α
  call : Name → List α → α

mutual

def fold {α : Type} (g : Algebra α) : Expr → α
  | signal x => g.signal x
  | and a b => g.and (fold g a) (fold g b)
  | or a b => g.or (fold g a) (fold g b)
  | not a => g.not (fold g a)
  | call f as => g.call f (foldAll g as)

def foldAll {α : Type} (g : Algebra α) : List Expr → List α
  | [] => []
  | a :: as => fold g a :: foldAll g as

end

theorem foldAll_eq_map {α : Type} (g : Algebra α) (as : List Expr) :
    foldAll g as = as.map (fold g) := by
  induction as with
  | nil => simp [foldAll]
  | cons a as ih => simp [foldAll, ih]

@[elab_as_elim]
theorem induct {motive : Expr → Prop} (signal : ∀ x, motive (signal x))
    (and : ∀ a b, motive a → motive b → motive (and a b))
    (or : ∀ a b, motive a → motive b → motive (or a b)) (not : ∀ a, motive a → motive (not a))
    (call : ∀ f as, (∀ a ∈ as, motive a) → motive (call f as)) (e : Expr) : motive e := by
  refine @Expr.rec motive (fun as => ∀ a ∈ as, motive a) signal and or not call (by simp)
    (fun a as ha has => ?_) e
  simpa using ⟨ha, has⟩

inductive Node where
  | signal (name : Name)
  | and
  | or
  | not
  | call (function : Name) (count : Nat)
deriving DecidableEq

/-- Every node, before its operands, and the operands from left to right. -/
def nodes : Expr → List Node :=
  fold {
    signal := fun x => [.signal x]
    and := fun a b => .and :: (a ++ b)
    or := fun a b => .or :: (a ++ b)
    not := fun a => .not :: a
    call := fun f as => .call f as.length :: as.flatten }

@[simp] theorem nodes_signal (x : Name) : (signal x).nodes = [.signal x] := by simp [nodes, fold]

@[simp] theorem nodes_and (a b : Expr) : (and a b).nodes = .and :: (a.nodes ++ b.nodes) := by
  simp [nodes, fold]

@[simp] theorem nodes_or (a b : Expr) : (or a b).nodes = .or :: (a.nodes ++ b.nodes) := by
  simp [nodes, fold]

@[simp] theorem nodes_not (a : Expr) : (not a).nodes = .not :: a.nodes := by simp [nodes, fold]

@[simp] theorem nodes_call (f : Name) (as : List Expr) :
    (call f as).nodes = .call f as.length :: as.flatMap nodes := by
  simp [nodes, fold, foldAll_eq_map, List.flatMap_def]

def node : Expr → Node
  | signal x => .signal x
  | and _ _ => .and
  | or _ _ => .or
  | not _ => .not
  | call f as => .call f as.length

mutual

def visit {σ : Type} (callback : σ → Expr → σ) (s : σ) : Expr → σ
  | signal x => callback s (signal x)
  | and a b => visit callback (visit callback (callback s (and a b)) a) b
  | or a b => visit callback (visit callback (callback s (or a b)) a) b
  | not a => visit callback (callback s (not a)) a
  | call f as => visitAll callback (callback s (call f as)) as

def visitAll {σ : Type} (callback : σ → Expr → σ) (s : σ) : List Expr → σ
  | [] => s
  | a :: as => visitAll callback (visit callback s a) as

end

theorem visitAll_eq_foldl {σ : Type} (callback : σ → Expr → σ) (s : σ) (as : List Expr) :
    visitAll callback s as = as.foldl (visit callback) s := by
  induction as generalizing s with
  | nil => simp [visitAll]
  | cons a as ih => simp [visitAll, ih]

def Node.signal? : Node → Option Name
  | signal x => some x
  | _ => none

/-- The signals an expression reads, each once and in the order of their names. -/
def signals (e : Expr) : List Name :=
  (Std.ExtTreeSet.ofList (e.nodes.filterMap Node.signal?) compare).toList

/-- Sums and products stand in parentheses, so that the text has one reading. -/
def text : Expr → String :=
  fold {
    signal := fun x => x
    and := fun a b => "(" ++ a ++ " * " ++ b ++ ")"
    or := fun a b => "(" ++ a ++ " + " ++ b ++ ")"
    not := fun a => "/" ++ a
    call := fun f as => f ++ "(" ++ Text.joined ", " as ++ ")" }

@[simp] theorem text_signal (x : Name) : (signal x).text = x := by simp [text, fold]

@[simp] theorem text_and (a b : Expr) :
    (and a b).text = "(" ++ a.text ++ " * " ++ b.text ++ ")" := by simp [text, fold]

@[simp] theorem text_or (a b : Expr) :
    (or a b).text = "(" ++ a.text ++ " + " ++ b.text ++ ")" := by simp [text, fold]

@[simp] theorem text_not (a : Expr) : (not a).text = "/" ++ a.text := by simp [text, fold]

@[simp] theorem text_call (f : Name) (as : List Expr) :
    (call f as).text = f ++ "(" ++ Text.joined ", " (as.map text) ++ ")" := by
  simp [text, fold, foldAll_eq_map]

end Expr

end SyncCircuit
