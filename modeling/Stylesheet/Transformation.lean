import Stylesheet.Body
import Stylesheet.Options
import Stylesheet.Winner

/-! Transforming a tree: a visit finds a rule and performs its body, and a body visits further
nodes. -/

namespace Stylesheet

/-- The traverse calls that a body has made, and whether one of them went to the children in the
default mode. -/
structure Sites where
  calls : Nat
  childTaken : Bool
  deriving DecidableEq

def Sites.fresh : Sites := ⟨0, false⟩

variable {ν : Type} [TreeNode ν]

namespace Visit

def root (node : ν) (mode : Mode) : Visit ν :=
  ⟨node, mode, .root (TreeNode.identifier node), 0⟩

def descend (v : Visit ν) (hop : Hop) (mode : Mode) (node : ν) : Visit ν :=
  ⟨node, mode, v.key.descend hop (TreeNode.identifier node), v.depth + 1⟩

def field (v : Visit ν) : Field → String
  | .key => v.key.text
  | .mode => v.mode.text
  | .depth => toString v.depth
  | .kind => (TreeNode.kind v.node).name
  | .name => (TreeNode.name v.node).getD "-"
  | .value => (TreeNode.value v.node).getD "-"
  | .identifier => (TreeNode.identifier v.node).getD "-"
  | .number => toString (TreeNode.number v.node)
  | .renderer =>
    "Renderer \x7b node: " ++ TreeNode.label v.node ++ ", mode: " ++ v.mode.label
      ++ ", key: " ++ Text.quoted v.key.text ++ ", depth: " ++ toString v.depth ++ " \x7d"

/-- Enters the nodes in turn, the first at `position`, and keeps the outputs that there are. -/
def enterAll (enter : Visit ν → Run ν (Option String)) (v : Visit ν) (hop : Nat → Hop)
    (mode : Mode) (position : Nat) : List ν → Run ν (List String)
  | [] => pure []
  | n :: ns => do
    let output ← enter (v.descend (hop position) mode n)
    let outputs ← enterAll enter v hop mode (position + 1) ns
    return output.toList ++ outputs

/-- Goes to the children, or to what the query selects. The first call for the children in the
default mode makes child hops. -/
def traverse (enter : Visit ν → Run ν (Option String)) (ev : Evaluator ν) (v : Visit ν)
    (query : Option String) (next : NextMode) (s : Sites) : Run ν (List String) × Sites :=
  let mode := next.after v.mode
  match query with
  | some path =>
    (do enterAll enter v (.visit s.calls · mode) mode 0 (← ev.query path v.node),
      ⟨s.calls + 1, s.childTaken⟩)
  | none =>
    if mode.isDefault && !s.childTaken then
      (enterAll enter v .child mode 0 (TreeNode.children v.node), ⟨s.calls + 1, true⟩)
    else
      (enterAll enter v (.visit s.calls · mode) mode 0 (TreeNode.children v.node),
        ⟨s.calls + 1, s.childTaken⟩)

end Visit

/-- A body that fails leaves its steps and its calls behind. -/
def Body.perform (enter : Visit ν → Run ν (Option String)) (ev : Evaluator ν) (v : Visit ν) :
    Body → Sites → Run ν String × Sites
  | skip, s => (pure "", s)
  | lit text, s => (pure text, s)
  | field f, s => (pure (v.field f), s)
  | attr name, s => (pure ((TreeNode.attr v.node name).getD "-"), s)
  | traverse query next gather, s =>
    let (r, s') := v.traverse enter ev query next s
    (gather.text <$> r, s')
  | attempt b, s =>
    let (r, s') := b.perform enter ev v s
    match r.result with
    | .error (.failure f) => (⟨r.log, .ok ("!" ++ f.text ++ "!")⟩, s')
    | _ => (r, s')
  | fail message, s => (Run.fail (.rule message), s)
  | within depth b, s => if v.depth < depth then b.perform enter ev v s else (pure "", s)
  | seq a b, s =>
    let (r, s') := a.perform enter ev v s
    match r.result with
    | .error h => (⟨r.log, .error h⟩, s')
    | .ok x =>
      let (r', s'') := b.perform enter ev v s'
      (⟨r.log ++ r'.log, r'.result.map (x ++ ·)⟩, s'')

/-- Visits a node, at most `limit` levels deep; without a rule there is no output. -/
def Registry.visit (g : Registry Body) (ev : Evaluator ν) (policy : UnmatchedPolicy) :
    Nat → Visit ν → Run ν (Option String)
  | 0, _ => Run.halt .exhausted
  | limit + 1, v => do
    match ← ev.winner g v.node v.mode with
    | some (rule, fallback) =>
      Run.note (.invoke v rule.head fallback)
      some <$> (rule.body.perform (visit g ev policy limit) ev v .fresh).1
    | none =>
      Run.note (.unmatched v)
      match policy with
      | .error => Run.fail (.unmatched v.key.text v.mode (TreeNode.kind v.node))
      | _ => return none

def Registry.run (g : Registry Body) (ev : Evaluator ν) (root : ν) (options : Options)
    (limit : Nat) : Run ν (Option String) :=
  g.visit ev options.unmatched limit (.root root options.mode)

end Stylesheet
