import SyncCircuit.Program.Basic

/-!
A circuit description as a hypertext page, with its expressions set as formulas.
-/

namespace SyncCircuit

/-- The text as the argument of a command that sets formulas. -/
def braced (s : String) : String := "\x7b" ++ s ++ "\x7d"

namespace Expr

def formula : Expr → String :=
  fold {
    signal := fun x => "\\mathrm" ++ braced x
    and := fun a b => "(" ++ a ++ "\\wedge " ++ b ++ ")"
    or := fun a b => "(" ++ a ++ "\\vee " ++ b ++ ")"
    not := fun a => "\\neg(" ++ a ++ ")"
    call := fun f as => "\\mathit" ++ braced f ++ "(" ++ Text.joined "," as ++ ")" }

@[simp] theorem formula_signal (x : Name) : (signal x).formula = "\\mathrm" ++ braced x := by
  simp [formula, fold]

@[simp] theorem formula_and (a b : Expr) :
    (and a b).formula = "(" ++ a.formula ++ "\\wedge " ++ b.formula ++ ")" := by
  simp [formula, fold]

@[simp] theorem formula_or (a b : Expr) :
    (or a b).formula = "(" ++ a.formula ++ "\\vee " ++ b.formula ++ ")" := by
  simp [formula, fold]

@[simp] theorem formula_not (a : Expr) : (not a).formula = "\\neg(" ++ a.formula ++ ")" := by
  simp [formula, fold]

@[simp] theorem formula_call (f : Name) (as : List Expr) :
    (call f as).formula =
      "\\mathit" ++ braced f ++ "(" ++ Text.joined "," (as.map formula) ++ ")" := by
  simp [formula, fold, foldAll_eq_map]

end Expr

namespace Page

def names (xs : List Name) : String := xs.foldr (fun x rest => x ++ " " ++ rest) ""

def definition (d : Definition) : String :=
  "\\(\\mathit" ++ braced d.name ++ "(" ++ Text.joined "," d.parameters ++ ") = " ++
    d.body.formula ++ "\\)<br>"

def update (u : Update) : String := u.target ++ "&larr;\\(" ++ u.value.formula ++ "\\)<br>"

def stimulus (t : Trace) : String := "<b>" ++ t.signal ++ "</b>: " ++ t.bits ++ "<br>"

def opening (name : Name) : List String := [
  "<!DOCTYPE html>",
  "<html><head><title> " ++ name ++ "</title>",
  "<script src = \"https://polyfill.io/v3/polyfill.min.js?features = es6\"></script>",
  "<script type = \"text/javascript\" id = \"MathJax-script\" async src = " ++
    "\"https://cdn.jsdelivr.net/npm/mathjax@3/es5/tex-chtml.js\">",
  "</script></head><body>",
  "<h1>" ++ name ++ "</h1>"]

def sections (p : Program) : List String :=
  ["<h2> Inputs </h2>", names p.inputs,
    "<h2> Outputs </h2>", names p.outputs,
    "<h2> Latches </h2>", names p.latches,
    "<h2> Definitions </h2>"] ++ p.definitions.map definition ++
  ["<h2> Updates </h2>"] ++ p.updates.map update ++
  ["<h2> Simulation inputs </h2>"] ++ p.stimuli.map stimulus

def lines (p : Program) : List String := opening p.name ++ sections p ++ ["</body></html>"]

end Page

def Program.page (p : Program) : String :=
  (Page.lines p).foldr (fun line rest => line ++ "\n" ++ rest) ""

end SyncCircuit
