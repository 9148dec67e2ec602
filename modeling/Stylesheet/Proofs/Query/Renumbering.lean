import Mathlib.Data.List.Basic
import Stylesheet.Proofs.Document.Renumbering
import Stylesheet.Query.Select

namespace Stylesheet

namespace Document.Renumbers

open Query

variable {d d' : Document} {f : d.Node ≃ d'.Node}

section

variable (hf : Renumbers f)

include hf

theorem nodes (axis : Axis) (n : d.Node) : axis.nodes (f n) = (axis.nodes n).map f := by
  cases axis with
  | self => rfl
  | child => exact hf.children n
  | parent =>
    rw [Axis.nodes, hf.parent?, Axis.nodes]
    cases n.parent? <;> rfl
  | ancestor => exact hf.ancestors n
  | ancestorOrSelf => exact congrArg (f n :: ·) (hf.ancestors n)
  | descendant => exact hf.descendants n
  | descendantOrSelf => exact congrArg (f n :: ·) (hf.descendants n)
  | followingSibling => exact hf.followingSiblings n
  | precedingSibling => exact hf.precedingSiblings n

theorem test_holds (test : NodeTest) (n : d.Node) : test.holds (f n) = test.holds n := by
  cases test with
  | any => rfl
  | element name => cases name <;> simp only [NodeTest.holds, hf.kind, hf.name?]
  | text => simp only [NodeTest.holds, hf.kind]
  | comment => simp only [NodeTest.holds, hf.kind]
  | instruction target => cases target <;> simp only [NodeTest.holds, hf.kind, hf.name?]
  | document => simp only [NodeTest.holds, hf.kind]

theorem attribute? (n : d.Node) (name : String) : (f n).attribute? name = n.attribute? name := by
  rw [Node.attribute?, hf.attributes, Node.attribute?]

end

-- Predicates contain paths, so that the induction goes through all parts of a query at once.
mutual

theorem predicate_holds (hf : Renumbers f) (n : d.Node) (position : Nat) (p : Predicate) :
    p.holds (f n) position = p.holds n position :=
  match p with
  | .position k => by
    simp only [Predicate.holds]
  | .attribute name comparison => by
    simp only [Predicate.holds, attributeHolds, hf.attribute?]
  | .not p => by
    simp only [Predicate.holds, predicate_holds hf n position p]
  | .selects paths => by
    simp only [Predicate.holds, union hf n paths, List.isEmpty_map]
termination_by structural p

theorem refine (hf : Renumbers f) (ns : List d.Node) (ps : List Predicate) :
    Query.refine (ns.map f) ps = (Query.refine ns ps).map f :=
  match ps with
  | [] => by
    simp only [Query.refine]
  | p :: ps => by
    have kept : (((ns.map f).zipIdx 1).filter fun m => p.holds m.1 m.2).map Prod.fst
        = (((ns.zipIdx 1).filter fun m => p.holds m.1 m.2).map Prod.fst).map f := by
      rw [List.zipIdx_map, List.filter_map, List.map_map, List.map_map]
      refine congrArg (List.map _) (List.filter_congr fun m _ => ?_)
      exact predicate_holds hf m.1 m.2 p
    simp only [Query.refine]
    rw [kept, refine hf _ ps]
termination_by structural ps

theorem step_select (hf : Renumbers f) (n : d.Node) (s : Query.Step) :
    s.select (f n) = (s.select n).map f :=
  match s with
  | .mk axis test predicates => by
    have tested : (axis.nodes (f n)).filter test.holds
        = ((axis.nodes n).filter test.holds).map f := by
      rw [hf.nodes, List.filter_map]
      exact congrArg (List.map f) (List.filter_congr fun m _ => hf.test_holds test m)
    simp only [Query.Step.select]
    rw [tested, refine hf _ predicates]
termination_by structural s

theorem follow (hf : Renumbers f) (ns : List d.Node) (ss : List Query.Step) :
    Query.follow (ns.map f) ss = (Query.follow ns ss).map f :=
  match ss with
  | [] => by
    simp only [Query.follow]
  | s :: ss => by
    have next : (ns.map f).flatMap (fun n => s.select n)
        = (ns.flatMap fun n => s.select n).map f := by
      rw [List.flatMap_map, List.map_flatMap]
      exact List.flatMap_congr fun n _ => step_select hf n s
    simp only [Query.follow]
    rw [next, hf.inDocumentOrder, follow hf _ ss]
termination_by structural ss

theorem path_select (hf : Renumbers f) (n : d.Node) (p : Path) :
    p.select (f n) = (p.select n).map f :=
  match p with
  | .mk absolute steps => by
    have start : [if absolute then d'.root else f n] = [if absolute then d.root else n].map f := by
      rw [List.map_singleton, apply_ite f, hf.root]
    simp only [Path.select]
    rw [start, follow hf _ steps]
termination_by structural p

theorem union (hf : Renumbers f) (n : d.Node) (ps : List Path) :
    Query.union (f n) ps = (Query.union n ps).map f :=
  match ps with
  | [] => by
    simp only [Query.union, List.map_nil]
  | p :: ps => by
    simp only [Query.union]
    rw [path_select hf n p, union hf n ps, List.map_append]
termination_by structural ps

end

variable (hf : Renumbers f)

include hf

theorem select (q : Query) (n : d.Node) : q.select (f n) = (q.select n).map f := by
  rw [Query.select, hf.union, hf.inDocumentOrder, Query.select]

theorem ofQueries_select (s : String) (n : d.Node) : (Evaluator.ofQueries d').select s (f n)
    = ((Evaluator.ofQueries d).select s n).map (List.map f) := by
  simp only [Evaluator.ofQueries]
  cases Evaluator.ofQueries.parse s with
  | error e => rfl
  | ok q => exact congrArg Except.ok (hf.select q n)

theorem ofQueries_accepts (s : String) (n : d.Node) :
    (Evaluator.ofQueries d').accepts s (f n) = (Evaluator.ofQueries d).accepts s n := by
  simp only [Evaluator.ofQueries]
  cases Evaluator.ofQueries.parse s with
  | error e => rfl
  | ok q =>
    refine congrArg (fun b => Except.ok !b) ?_
    rw [hf.select, List.isEmpty_map]

end Document.Renumbers

end Stylesheet
