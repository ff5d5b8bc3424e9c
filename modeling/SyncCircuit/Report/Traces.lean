import SyncCircuit.Circuit
import SyncCircuit.Report.Json

/-!
The traces of a circuit, as lines and as data.
-/

namespace SyncCircuit

def Trace.lines (ts : List Trace) : String :=
  ts.foldr (fun t rest => t.text ++ "\n" ++ rest) ""

theorem Trace.lines_append (ts us : List Trace) : lines (ts ++ us) = lines ts ++ lines us := by
  induction ts with
  | nil => exact (String.empty_append).symm
  | cons t ts ih =>
    rw [List.cons_append]
    simp only [lines, List.foldr_cons, String.append_assoc] at ih ⊢
    rw [ih]

def Trace.json (t : Trace) : Json :=
  .object [("bits", .string t.bits), ("signal", .string t.signal)]

namespace Circuit

def textReport (c : Circuit) : String := Trace.lines c.stimuli ++ Trace.lines c.recorded

/-- The fields stand in the order of their names. -/
def jsonReport (c : Circuit) : Json :=
  .object [
    ("circuit", .string c.name),
    ("inputs", .array (c.stimuli.map Trace.json)),
    ("length", .number c.length),
    ("outputs", .array (c.recorded.map Trace.json))]

end Circuit

end SyncCircuit
