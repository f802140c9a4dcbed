import Mathlib.Logic.Relation
import SourceIndex.Proofs.Survey

/-! The outline as it is built call by call. A traversal of a forest enters each node before its
subtree and exits it afterwards, and the builder gives the forest back without its childless roots.
Exits while nothing is open, and declarations that are never closed, leave no trace. -/

namespace SourceIndex

namespace Outline

inductive Call where
  | enter (id : Nat)
  | exit

mutual

/-- The traversal of a tree. -/
def calls : Outline → List Call
  | .node id children => .enter id :: (forestCalls children ++ [.exit])

def forestCalls : List Outline → List Call
  | [] => []
  | o :: os => o.calls ++ forestCalls os

end

/-- Declarations that are entered one inside the other and not closed any more. Below each of them,
complete subtrees are traversed. -/
def openCalls (left : List (Nat × List Outline)) : List Call :=
  left.flatMap fun (id, subtrees) => .enter id :: forestCalls subtrees

namespace Call

/-- How many declarations are open after one more call. -/
def count (n : Nat) : Call → Nat
  | enter _ => n + 1
  | exit => n - 1

/-- How many declarations are open after these calls. -/
def openAfter (calls : List Call) : Nat := calls.foldl count 0

/-- One exit more, at a moment when nothing is open. -/
def OneMoreExit (calls calls' : List Call) : Prop :=
  ∃ before after, openAfter before = 0 ∧ calls = before ++ after ∧ calls' = before ++ .exit :: after

/-- Any number of exits more, each at a moment when nothing is open. -/
abbrev MoreExits : List Call → List Call → Prop := Relation.ReflTransGen OneMoreExit

end Call

namespace Builder

def apply (b : Builder) : Call → Builder
  | .enter id => b.enter id
  | .exit => b.exit

def run (b : Builder) (calls : List Call) : Builder := calls.foldl apply b

theorem run_append (b : Builder) (calls calls' : List Call) :
    b.run (calls ++ calls') = (b.run calls).run calls' :=
  List.foldl_append

theorem depth_exit (b : Builder) : b.exit.depth = b.depth - 1 := by
  obtain ⟨stack, roots⟩ := b
  match stack with
  | [] => rfl
  | _ :: _ :: _ => rfl
  | [(_, [])] => rfl
  | [(_, _ :: _)] => rfl

theorem depth_run (b : Builder) (calls : List Call) :
    (b.run calls).depth = calls.foldl Call.count b.depth := by
  induction calls generalizing b with
  | nil => rfl
  | cons call calls ih =>
    have hstep : (b.apply call).depth = call.count b.depth := by
      cases call with
      | enter id => rfl
      | exit => exact depth_exit b
    rw [List.foldl_cons, ← hstep]
    exact ih _

theorem exit_of_depth_eq_zero {b : Builder} (h : b.depth = 0) : b.exit = b := by
  obtain ⟨stack, roots⟩ := b
  obtain rfl : stack = [] := List.length_eq_zero_iff.mp h
  rfl

mutual

/-- The traversal of a tree puts it below what is open. -/
theorem run_calls (b : Builder) (o : Outline) : b.run o.calls = b.hang [o] := by
  cases o with
  | node id children =>
    have hchildren := run_forestCalls (b.enter id) children
    rw [calls, ← List.cons_append, run_append]
    change ((b.enter id).run (forestCalls children)).exit = _
    rw [hchildren, exit_hang_enter]

theorem run_forestCalls (b : Builder) (forest : List Outline) :
    b.run (forestCalls forest) = b.hang forest := by
  cases forest with
  | nil => exact b.hang_nil.symm
  | cons o os =>
    rw [forestCalls, run_append, run_calls b o, run_forestCalls (b.hang [o]) os, hang_hang]
    rfl

end

theorem roots_hang_enter (b : Builder) (id : Nat) (forest : List Outline) :
    ((b.enter id).hang forest).roots = b.roots := rfl

/-- What is not closed does not become a root. -/
theorem roots_run_openCalls (b : Builder) (left : List (Nat × List Outline)) :
    (b.run (openCalls left)).roots = b.roots := by
  induction left generalizing b with
  | nil => rfl
  | cons x left ih =>
    obtain ⟨id, subtrees⟩ := x
    have hsplit : b.run (openCalls ((id, subtrees) :: left)) =
        ((b.enter id).run (forestCalls subtrees)).run (openCalls left) :=
      run_append (b.enter id) (forestCalls subtrees) (openCalls left)
    rw [hsplit, ih, run_forestCalls, roots_hang_enter]

theorem run_of_oneMoreExit {calls calls' : List Call} (h : Call.OneMoreExit calls calls') :
    run {} calls' = run {} calls := by
  obtain ⟨before, after, hclosed, rfl, rfl⟩ := h
  have hdepth : (run {} before).depth = 0 := (depth_run {} before).trans hclosed
  rw [run_append, run_append]
  change (run {} before).exit.run after = _
  rw [exit_of_depth_eq_zero hdepth]

theorem run_of_moreExits {calls calls' : List Call} (h : Call.MoreExits calls calls') :
    run {} calls' = run {} calls := by
  induction h with
  | refl => rfl
  | tail _ hstep ih => exact (run_of_oneMoreExit hstep).trans ih

/-- A fresh builder that is taken through a forest, each node entered before its subtree and exited
after it, gives back the forest without its childless roots. That is so with any number of exits
more while nothing is open, and with any declarations that are entered in the end and never closed,
whatever complete subtrees there are below them. -/
theorem finish_rebuilds_forest (forest : List Outline) (left : List (Nat × List Outline))
    {calls : List Call} (h : Call.MoreExits (forestCalls forest ++ openCalls left) calls) :
    (run {} calls).finish = forest.filter hasChildren := by
  have hroots : (run {} (forestCalls forest ++ openCalls left)).roots =
      (hang {} forest).roots := by
    rw [run_append, roots_run_openCalls, run_forestCalls]
  have hforest : (hang {} forest).roots = (forest.filter hasChildren).reverse :=
    List.append_nil _
  rw [run_of_moreExits h, finish, hroots, hforest, List.reverse_reverse]

/-- A root with a child between two without, an exit too many before and after the first of them,
and two declarations left open in the end. -/
theorem finish_of_unbalanced_calls :
    let forest : List Outline := [.node 1 [], .node 2 [.node 3 []], .node 4 []]
    let left : List (Nat × List Outline) := [(5, [.node 6 []]), (7, [])]
    let calls : List Call := [.exit, .enter 1, .exit, .exit, .enter 2, .enter 3, .exit, .exit,
      .enter 4, .exit, .enter 5, .enter 6, .exit, .enter 7]
    Call.MoreExits (forestCalls forest ++ openCalls left) calls ∧
      (run {} calls).finish = [.node 2 [.node 3 []]] := by
  intro forest left calls
  have hfirst : Call.OneMoreExit (forestCalls forest ++ openCalls left)
      (.exit :: (forestCalls forest ++ openCalls left)) := ⟨[], _, rfl, rfl, rfl⟩
  have hsecond : Call.OneMoreExit (.exit :: (forestCalls forest ++ openCalls left)) calls :=
    ⟨[.exit, .enter 1, .exit], _, rfl, rfl, rfl⟩
  have hmore : Call.MoreExits (forestCalls forest ++ openCalls left) calls :=
    (Relation.ReflTransGen.single hfirst).tail hsecond
  exact ⟨hmore, finish_rebuilds_forest forest left hmore⟩

end Builder

end Outline

end SourceIndex
