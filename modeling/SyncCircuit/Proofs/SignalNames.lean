import Mathlib.Data.List.Destutter
import SyncCircuit.Proofs.ByteOrder
import SyncCircuit.Proofs.Evaluation
import SyncCircuit.Proofs.Traversal

/-!
The names of the signals that an expression reads. They are listed by their bytes, each once, and
they are the names that stand at some address of the expression, whatever its functions are called.
The list can also be had by noting down every signal on a visit, sorting the names and keeping one
of those that are then next to each other and equal.
-/

namespace SyncCircuit

namespace Expr

variable {e : Expr} {x : Name} {names : List Name}

def noteSignal (noted : List Name) : Expr → List Name
  | signal x => noted ++ [x]
  | _ => noted

/-- Sorts names by their bytes and keeps the first of each run of equal ones. -/
def sortDistinct (names : List Name) : List Name :=
  (names.mergeSort fun x y => Text.bytes x ≤ Text.bytes y).destutter (· ≠ ·)

def renameFunctions (rename : Name → Name) : Expr → Expr :=
  fold {
    signal := signal
    and := and
    or := or
    not := not
    call := fun f as => call (rename f) as }

theorem foldl_noteSignal (noted : List Name) (as : List Expr) :
    as.foldl noteSignal noted = noted ++ as.filterMap (·.node.signal?) := by
  induction as generalizing noted with
  | nil => simp
  | cons a as ih =>
    rw [List.foldl_cons, ih]
    cases a <;> simp [noteSignal, node, Node.signal?]

theorem visit_noteSignal (e : Expr) :
    e.visit noteSignal [] = e.nodes.filterMap Node.signal? := by
  rw [visit_eq_foldl, foldl_noteSignal, List.nil_append, nodes_eq_map, List.filterMap_map]
  rfl

theorem mem_visit_noteSignal : x ∈ e.visit noteSignal [] ↔ x ∈ e.signals := by
  rw [visit_noteSignal, signals, Std.ExtTreeSet.mem_toList, Std.ExtTreeSet.mem_ofList,
    List.contains_iff_mem]

theorem mem_signals_iff_at : x ∈ e.signals ↔ ∃ w, e.at? w = some (signal x) := by
  rw [mem_signals, nodes_eq_map, List.mem_map]
  constructor
  · rintro ⟨a, ha, hx⟩
    obtain ⟨w, -, hw⟩ := List.mem_filterMap.mp ha
    cases a <;> cases hx
    exact ⟨w, hw⟩
  · rintro ⟨w, hw⟩
    have haddress : w ∈ e.addresses := mem_addresses.mpr (hw ▸ rfl)
    exact ⟨signal x, List.mem_filterMap.mpr ⟨w, haddress, hw⟩, rfl⟩

theorem pairwise_signals (e : Expr) : e.signals.Pairwise (· < ·) :=
  Std.ExtTreeSet.ordered_toList.imp compare_lt_iff_lt.mp

theorem pairwise_mergeSort_bytes (names : List Name) :
    (names.mergeSort fun x y => Text.bytes x ≤ Text.bytes y).Pairwise (· ≤ ·) := by
  simp only [Text.bytes_le_iff]
  have htrans : ∀ x y z : Name, decide (x ≤ y) → decide (y ≤ z) → decide (x ≤ z) := by
    simpa using fun x y z => le_trans
  have htotal : ∀ x y : Name, decide (x ≤ y) || decide (y ≤ x) := by simpa using le_total
  exact (List.pairwise_mergeSort htrans htotal names).imp of_decide_eq_true

theorem sortDistinct_eq (names : List Name) : sortDistinct names =
    (names.mergeSort fun x y => Text.bytes x ≤ Text.bytes y).dedup :=
  (pairwise_mergeSort_bytes names).destutter_eq_dedup

/-- In a sorted list equal names are next to each other, so that none is left twice. -/
theorem pairwise_sortDistinct (names : List Name) : (sortDistinct names).Pairwise (· < ·) := by
  rw [sortDistinct_eq]
  have hle := (pairwise_mergeSort_bytes names).sublist (List.dedup_sublist _)
  exact (hle.and (List.nodup_dedup _)).imp fun ⟨hxy, hne⟩ => lt_of_le_of_ne hxy hne

theorem mem_sortDistinct : x ∈ sortDistinct names ↔ x ∈ names := by
  rw [sortDistinct_eq, List.mem_dedup, List.mem_mergeSort]

theorem renameFunctions_eq_signal {rename : Name → Name} :
    e.renameFunctions rename = signal x ↔ e = signal x := by
  cases e <;> simp [renameFunctions, fold]

theorem operands_renameFunctions (rename : Name → Name) (e : Expr) :
    (e.renameFunctions rename).operands = e.operands.map (renameFunctions rename) := by
  cases e <;> simp [renameFunctions, fold, foldAll_eq_map, operands]

theorem at?_renameFunctions (rename : Name → Name) (e : Expr) (w : Address) :
    (e.renameFunctions rename).at? w = (e.at? w).map (renameFunctions rename) := by
  induction w generalizing e with
  | nil => rfl
  | cons i w ih =>
    rw [at?, at?, operands_renameFunctions, List.getElem?_map]
    cases e.operands[i]? with
    | none => rfl
    | some a => exact ih a

theorem signals_renameFunctions (rename : Name → Name) (e : Expr) :
    (e.renameFunctions rename).signals = e.signals := by
  refine (pairwise_signals _).eq_of_mem_iff (pairwise_signals e) fun x => ?_
  simp only [mem_signals_iff_at, at?_renameFunctions, Option.map_eq_some_iff,
    renameFunctions_eq_signal, exists_eq_right]

/-- The names of the signals that an expression reads increase strictly in the order of their bytes.
They are the names of the signals at any of its addresses, within the arguments of calls too, and no
others: a function has its name among them only if a signal has the same name, as the names are the
same when the functions are renamed. To note down the signals on a visit, and then sort the names
and drop those that follow an equal one, gives the same list. -/
theorem signals_exact (e : Expr) :
    e.signals.Pairwise (fun x y => Text.bytes x < Text.bytes y) ∧
      (∀ x, x ∈ e.signals ↔ ∃ w, e.at? w = some (signal x)) ∧
      (∀ rename, (e.renameFunctions rename).signals = e.signals) ∧
      e.signals = sortDistinct (e.visit noteSignal []) := by
  refine ⟨(pairwise_signals e).imp Text.bytes_lt, fun _ => mem_signals_iff_at,
    fun rename => signals_renameFunctions rename e, ?_⟩
  refine (pairwise_signals e).eq_of_mem_iff (pairwise_sortDistinct _) fun x => ?_
  rw [mem_sortDistinct, mem_visit_noteSignal]

example : (call "f" [signal "b'", not (signal "b"), call "A" [signal "é", signal "b"]]).signals =
    ["b", "b'", "é"] := by decide +kernel

end Expr

end SyncCircuit
