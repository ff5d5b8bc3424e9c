import SyncCircuit.Proofs.JsonReading
import SyncCircuit.Report.Traces

/-!
What is found in the reports of a circuit. Both tell the same of its traces, cell by cell, and a
trace is determined by it.
-/

namespace SyncCircuit

namespace Text

def cut? (separator : Char) : List Char → Option (List Char × List Char)
  | [] => none
  | c :: cs =>
    if c = separator then some ([], cs)
    else (cut? separator cs).map fun (before, after) => (c :: before, after)

/-- The lines of a text. After a line break at the very end no line begins. -/
def lines (text : String) : List (List Char) :=
  if (pieces '\n' text.toList).getLast? = some [] then (pieces '\n' text.toList).dropLast
  else pieces '\n' text.toList

theorem cut?_append {c : Char} {u : List Char} (h : c ∉ u) (rest : List Char) :
    cut? c (u ++ c :: rest) = some (u, rest) := by
  induction u with
  | nil => simp [cut?]
  | cons d u ih =>
    obtain ⟨hd, hu⟩ := List.ne_and_not_mem_of_not_mem_cons h
    rw [List.cons_append, cut?, if_neg (Ne.symm hd), ih hu, Option.map_some]

theorem lines_terminated {ss : List String} (h : ∀ s ∈ ss, '\n' ∉ s.toList) :
    lines (terminated "\n" ss) = ss.map String.toList := by
  rw [lines, pieces_terminated (by simp : "\n".toList = ['\n']) h, List.getLast?_concat,
    if_pos rfl, List.dropLast_concat]

end Text

namespace Trace

def ofLine? (line : List Char) : Option (String × Name) :=
  (Text.cut? ' ' line).map fun (bits, signal) => (String.ofList bits, String.ofList signal)

theorem ofLine?_text (t : Trace) : ofLine? t.text.toList = some (t.bits, t.signal) := by
  have hbits : ' ' ∉ t.bits.toList := by
    intro h
    rcases mem_bits h with h | h | h <;> cases h
  have htext : t.text.toList = t.bits.toList ++ ' ' :: t.signal.toList := by simp [text]
  rw [htext, ofLine?, Text.cut?_append hbits]
  simp only [Option.map_some, String.ofList_toList]

theorem lines_eq_terminated (ts : List Trace) : lines ts = terminated "\n" (ts.map text) := by
  rw [terminated, List.foldr_map]
  rfl

theorem eq_of_bits_eq {t u : Trace} (hs : t.signal = u.signal) (hb : t.bits = u.bits) : t = u := by
  obtain ⟨x, cells⟩ := t
  obtain ⟨y, cells'⟩ := u
  obtain rfl : x = y := hs
  obtain rfl : cells = cells' := cells_eq_of_bits_eq hb
  rfl

end Trace

namespace Json

def at? (key : String) : Json → Option Json
  | object fields => fields.lookup key
  | _ => none

def asNumber? : Json → Option Nat
  | number n => some n
  | _ => none

def asString? : Json → Option String
  | string s => some s
  | _ => none

def asArray? : Json → Option (List Json)
  | array items => some items
  | _ => none

end Json

def Trace.ofJson? (v : Json) : Option (Name × String) := do
  let signal ← (← v.at? "signal").asString?
  let bits ← (← v.at? "bits").asString?
  some (signal, bits)

structure Found where
  circuit : Name
  length : Nat
  inputs : List (Name × String)
  outputs : List (Name × String)

def Found.ofJson? (v : Json) : Option Found := do
  let circuit ← (← v.at? "circuit").asString?
  let length ← (← v.at? "length").asNumber?
  let inputs ← (← (← v.at? "inputs").asArray?).mapM Trace.ofJson?
  let outputs ← (← (← v.at? "outputs").asArray?).mapM Trace.ofJson?
  some ⟨circuit, length, inputs, outputs⟩

theorem Trace.mapM_ofJson?_json (ts : List Trace) :
    (ts.map Trace.json).mapM Trace.ofJson? = some (ts.map fun t => (t.signal, t.bits)) := by
  induction ts with
  | nil => rfl
  | cons t ts ih =>
    rw [List.map_cons, List.mapM_cons, ih]
    rfl

namespace Circuit

variable {c : Circuit}

theorem lines_textReport (h : ∀ t ∈ c.stimuli ++ c.recorded, '\n' ∉ t.signal.toList) :
    (Text.lines c.textReport).map Trace.ofLine? =
      (c.stimuli ++ c.recorded).map fun t => some (t.bits, t.signal) := by
  have hline : ∀ t ∈ c.stimuli ++ c.recorded, '\n' ∉ t.text.toList := by
    intro t ht hmem
    have htext : t.text.toList = t.bits.toList ++ ' ' :: t.signal.toList := by simp [Trace.text]
    rw [htext, List.mem_append, List.mem_cons] at hmem
    rcases hmem with hbits | hspace | hsignal
    · rcases Trace.mem_bits hbits with hc | hc | hc <;> cases hc
    · cases hspace
    · exact h t ht hsignal
  rw [textReport, ← Trace.lines_append, Trace.lines_eq_terminated,
    Text.lines_terminated (List.forall_mem_map.mpr hline), List.map_map, List.map_map]
  exact List.map_congr_left fun t _ => t.ofLine?_text

theorem ofJson?_jsonReport (c : Circuit) : Found.ofJson? c.jsonReport = some {
    circuit := c.name
    length := c.length
    inputs := c.stimuli.map fun t => (t.signal, t.bits)
    outputs := c.recorded.map fun t => (t.signal, t.bits) } := by
  have hname : c.jsonReport.at? "circuit" = some (.string c.name) := rfl
  have hlength : c.jsonReport.at? "length" = some (.number c.length) := rfl
  have hinputs : c.jsonReport.at? "inputs" = some (.array (c.stimuli.map Trace.json)) := rfl
  have houtputs : c.jsonReport.at? "outputs" = some (.array (c.recorded.map Trace.json)) := rfl
  simp only [Found.ofJson?, hname, hlength, hinputs, houtputs, Json.asString?, Json.asNumber?,
    Json.asArray?, Trace.mapM_ofJson?_json, Option.bind_eq_bind, Option.bind_some]

/-- Of every circuit, whatever has been recorded in it: if no name has a line break in it, the lines
of the text, each cut at its first blank, are the traces; and whatever characters the names have,
the data are read back from their text, and the name, the length and the same traces are found
there. -/
theorem reports_exact (c : Circuit) :
    ((∀ t ∈ c.stimuli ++ c.recorded, '\n' ∉ t.signal.toList) →
      (Text.lines c.textReport).map Trace.ofLine? =
        (c.stimuli ++ c.recorded).map fun t => some (t.bits, t.signal)) ∧
    Json.decode? c.jsonReport.text = some c.jsonReport ∧
    Found.ofJson? c.jsonReport = some {
      circuit := c.name
      length := c.length
      inputs := c.stimuli.map fun t => (t.signal, t.bits)
      outputs := c.recorded.map fun t => (t.signal, t.bits) } ∧
    ∀ t u : Trace, t.signal = u.signal → t.bits = u.bits → t = u :=
  ⟨lines_textReport, Json.decode?_text _, ofJson?_jsonReport c, fun _ _ => Trace.eq_of_bits_eq⟩

/-- A circuit in which names look like bits, are empty or must be escaped, before its first run. -/
def oddlyNamed : Circuit where
  name := "\"\\\u0001\né\""
  inputs := ["1 X", ""]
  outputs := ["\\\"", "X"]
  latches := []
  definitions := .empty
  updates := []
  stimuli := [.ofValues "1 X" [false, true], .ofValues "" [true, true]]
  recorded := [.unset "\\\"" 2, .unset "X" 2]
  length := 2
  length_eq := by decide

theorem reports_exact_oddlyNamed :
    oddlyNamed.textReport = "01 1 X\n11 \nXX \\\"\nXX X\n" ∧
    (Text.lines oddlyNamed.textReport).map Trace.ofLine? =
      [some ("01", "1 X"), some ("11", ""), some ("XX", "\\\""), some ("XX", "X")] ∧
    (Json.decode? oddlyNamed.jsonReport.text).bind Found.ofJson? = some {
      circuit := "\"\\\u0001\né\""
      length := 2
      inputs := [("1 X", "01"), ("", "11")]
      outputs := [("\\\"", "XX"), ("X", "XX")] } := by
  obtain ⟨hlines, hdecode, hfound, -⟩ := reports_exact oddlyNamed
  refine ⟨by decide, (hlines (by decide)).trans (by decide), ?_⟩
  rw [hdecode, Option.bind_some, hfound]
  rfl

end Circuit

end SyncCircuit
