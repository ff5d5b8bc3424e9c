import SyncCircuit.Fault

/-!
Effects that can fail half-way. An outcome has the state that was reached and the fault, if any,
that stopped there; what was done before the fault stays done.
-/

namespace SyncCircuit

structure Outcome (σ : Type) where
  state : σ
  fault : Option Fault

namespace Outcome

variable {σ τ α : Type}

def done (s : σ) : Outcome σ := ⟨s, none⟩

def andThen (o : Outcome σ) (next : σ → Outcome σ) : Outcome σ :=
  match o.fault with
  | none => next o.state
  | some _ => o

def map (f : σ → τ) (o : Outcome σ) : Outcome τ := ⟨f o.state, o.fault⟩

def mapFault (f : Fault → Fault) (o : Outcome σ) : Outcome σ := ⟨o.state, o.fault.map f⟩

/-- Takes a step for each item in turn, up to the first that fails. -/
def each (step : σ → α → Except Fault σ) : List α → σ → Outcome σ
  | [], s => done s
  | a :: as, s =>
    match step s a with
    | .ok s => each step as s
    | .error f => ⟨s, some f⟩

def mapEach (change : α → Except Fault α) : List α → Outcome (List α)
  | [] => done []
  | a :: as =>
    match change a with
    | .ok b => (mapEach change as).map (b :: ·)
    | .error f => ⟨a :: as, some f⟩

@[simp] theorem done_state (s : σ) : (done s).state = s := rfl
@[simp] theorem done_fault (s : σ) : (done s).fault = none := rfl
@[simp] theorem map_state (f : σ → τ) (o : Outcome σ) : (o.map f).state = f o.state := rfl
@[simp] theorem map_fault (f : σ → τ) (o : Outcome σ) : (o.map f).fault = o.fault := rfl

@[simp] theorem mapFault_state (f : Fault → Fault) (o : Outcome σ) :
    (o.mapFault f).state = o.state := rfl

@[simp] theorem mapFault_fault (f : Fault → Fault) (o : Outcome σ) :
    (o.mapFault f).fault = o.fault.map f := rfl

end Outcome

end SyncCircuit
