import Stylesheet.Failure
import Stylesheet.Key
import Stylesheet.Registry

/-! What happens in a traversal. A run is the list of its steps and what they come to. -/

namespace Stylesheet

/-- A node on its turn. -/
structure Visit (ν : Type) where
  node : ν
  mode : Mode
  key : Key
  depth : Nat
  deriving DecidableEq

inductive Call (ν : Type)
  | accepts (pattern : String) (node : ν)
  | select (path : String) (context : ν)
  deriving DecidableEq

inductive Step (ν : Type)
  | call (c : Call ν)
  | fallBack (mode : Mode)
  | invoke (visit : Visit ν) (rule : RuleHead) (fallback : Bool)
  | unmatched (visit : Visit ν)
  deriving DecidableEq

/-- Why a run ends early: it fails, or it nests deeper than it may. -/
inductive Halt
  | failure (f : Failure)
  | exhausted
  deriving DecidableEq

structure Run (ν α : Type) where
  log : List (Step ν)
  result : Except Halt α

namespace Run

variable {ν α β : Type}

def bind (r : Run ν α) (f : α → Run ν β) : Run ν β :=
  match r.result with
  | .ok x => ⟨r.log ++ (f x).log, (f x).result⟩
  | .error h => ⟨r.log, .error h⟩

instance : Monad (Run ν) where
  pure x := ⟨[], .ok x⟩
  bind := bind

@[ext] theorem ext {r s : Run ν α} (hl : r.log = s.log) (hr : r.result = s.result) : r = s := by
  cases r; cases s; simp_all

theorem bind_ok {r : Run ν α} {x : α} (h : r.result = .ok x) (f : α → Run ν β) :
    (r >>= f : Run ν β) = ⟨r.log ++ (f x).log, (f x).result⟩ := by
  show bind r f = _
  simp only [bind, h]

theorem bind_error {r : Run ν α} {e : Halt} (h : r.result = .error e) (f : α → Run ν β) :
    (r >>= f : Run ν β) = ⟨r.log, .error e⟩ := by
  show bind r f = _
  simp only [bind, h]

@[simp] theorem log_pure (x : α) : (pure x : Run ν α).log = [] := rfl

@[simp] theorem result_pure (x : α) : (pure x : Run ν α).result = .ok x := rfl

theorem bind_assoc {γ : Type} (r : Run ν α) (f : α → Run ν β) (g : β → Run ν γ) :
    bind (bind r f) g = bind r fun x => bind (f x) g := by
  cases r with
  | mk log result =>
    cases result with
    | error e => rfl
    | ok x =>
      simp only [bind]
      cases (f x).result <;> simp

theorem bind_pure (r : Run ν α) : bind r pure = r := by
  cases r with
  | mk log result => cases result <;> simp [bind]

instance : LawfulMonad (Run ν) :=
  LawfulMonad.mk' (Run ν) bind_pure (fun _ _ => rfl) bind_assoc

theorem map_eq (f : α → β) (r : Run ν α) : f <$> r = ⟨r.log, r.result.map f⟩ := by
  rw [← bind_pure_comp]
  cases h : r.result with
  | ok x => rw [bind_ok h, log_pure, List.append_nil]; rfl
  | error e => rw [bind_error h]; rfl

def note (s : Step ν) : Run ν Unit := ⟨[s], .ok ()⟩

def halt (h : Halt) : Run ν α := ⟨[], .error h⟩

def fail (f : Failure) : Run ν α := halt (.failure f)

def ofReply (c : Call ν) (reply : Except EvaluationError α) : Run ν α :=
  ⟨[.call c], reply.mapError fun e => .failure (.evaluation e)⟩

end Run

end Stylesheet
