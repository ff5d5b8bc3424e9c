import SyncCircuit.Fault

/-!
The values of one signal over the cycles of a simulation. A cell that has no value yet shows as `X`.
-/

namespace SyncCircuit

structure Trace where
  signal : Name
  cells : List (Option Bool)
deriving DecidableEq

namespace Trace

def ofValues (signal : Name) (values : List Bool) : Trace := ⟨signal, values.map some⟩

def unset (signal : Name) (length : Nat) : Trace := ⟨signal, List.replicate length none⟩

def readBit (signal : Name) (c : Char) : Except Fault Bool :=
  if c = '0' then .ok false else if c = '1' then .ok true else .error (.invalidBit signal c)

def ofBits (signal : Name) (bits : String) : Except Fault Trace :=
  (bits.toList.mapM (readBit signal)).map (ofValues signal)

def length (t : Trace) : Nat := t.cells.length

/-- The value at a cycle, if it is within the trace and has been set. -/
def get? (t : Trace) (cycle : Nat) : Option Bool := t.cells[cycle]?.join

def set? (t : Trace) (cycle : Nat) (value : Bool) : Option Trace :=
  if cycle < t.length then some { t with cells := t.cells.set cycle (some value) } else none

def cellChar : Option Bool → Char
  | some value => digit value
  | none => 'X'

def bits (t : Trace) : String := String.ofList (t.cells.map cellChar)

theorem toList_bits (t : Trace) : t.bits.toList = t.cells.map cellChar := String.toList_ofList

theorem cellChar_inj {a b : Option Bool} : cellChar a = cellChar b ↔ a = b := by
  rcases a with _ | _ | _ <;> rcases b with _ | _ | _ <;> decide

theorem cells_eq_of_bits_eq {t u : Trace} (h : t.bits = u.bits) : t.cells = u.cells := by
  rw [bits, bits, String.ofList_inj] at h
  exact (List.map_inj_right fun _ _ => cellChar_inj.mp).mp h

theorem mem_bits {t : Trace} {c : Char} (h : c ∈ t.bits.toList) : c = '0' ∨ c = '1' ∨ c = 'X' := by
  rw [toList_bits] at h
  obtain ⟨cell, -, rfl⟩ := List.mem_map.mp h
  rcases cell with _ | _ | _
  · exact .inr (.inr rfl)
  · exact .inl rfl
  · exact .inr (.inl rfl)

def text (t : Trace) : String := t.bits ++ " " ++ t.signal

end Trace

end SyncCircuit
