import Downlevel.Proofs.Evaluation
import Downlevel.Tree.Node

/-!
# The walk with a stack

The walk through an expression needs no recursion. It can be a loop that keeps the expressions still
to be visited on a stack: each round takes the top one off, notes it as found, and puts its
evaluated parts onto the stack.

What the loop has found together with what recursion finds in the expressions on the stack is the
same from round to round (`Traversal.result_step`), and each round leaves one expression less to
visit (`Traversal.remaining_step`). So every loop ends. Main statement: started with an expression,
it has then found what `Expression.reachable` says, in pre-order (`Traversal.run_start`).
-/

namespace Downlevel

/-! ## Evaluated children -/

namespace Expression

/-- The expression in a child that is evaluated with the expression above it. The comments among the
elements of an array are not, nor is the name of a class or the inside of a function. -/
def evaluatedChild? (parent : Expression) : Node → Option Expression
  | .expression part =>
    match parent with
    | .array .. => if part.isComment then none else some part
    | _ => some part
  | .member m => m.value?
  | .part p => p.expression?
  | _ => none

/-- All of these children are evaluated. -/
theorem filterMap_evaluatedChild? {parent : Expression} (list : List Expression)
    (h : ∀ part, parent.evaluatedChild? (.expression part) = some part) :
    (list.map Node.expression).filterMap parent.evaluatedChild? = list := by
  induction list with
  | nil => rfl
  | cons part rest ih => rw [List.map_cons, List.filterMap_cons_some (h part), ih]

/-- The evaluated parts are found among the children, and none of them is missed. -/
theorem evaluated_eq_children (e : Expression) :
    e.evaluated = e.children.filterMap e.evaluatedChild? := by
  cases e with
  | call callee opening arguments closing | callfunc callee _ _ opening arguments closing =>
    exact (filterMap_evaluatedChild? (callee :: arguments) fun _ => rfl).symm
  | construct keyword className opening arguments closing =>
    exact (filterMap_evaluatedChild? arguments fun _ => rfl).symm
  | array opening elements closing =>
    have hguard : (array opening elements closing).evaluatedChild? ∘ Node.expression =
        Option.guard fun element => !element.isComment := by
      funext element
      cases h : element.isComment <;> simp [evaluatedChild?, Option.guard, h]
    rw [evaluated, children, List.filterMap_map, hguard, List.filterMap_eq_filter]
  | record | template =>
    rw [evaluated, children, List.filterMap_map]
    rfl
  | _ => rfl

/-- There is a side effect in the expression itself or in one of its evaluated parts. -/
theorem containsMutating_iff_isMutating_or {e : Expression} : e.containsMutating = true ↔
    e.isMutating = true ∨ ∃ part ∈ e.evaluated, part.containsMutating = true := by
  rw [containsMutating, reachable_eq, List.any_cons, Bool.or_eq_true, List.any_flatMap,
    List.any_eq_true]
  rfl

end Expression

/-! ## The loop -/

/-- How far the loop has got. -/
structure Traversal where
  /-- What is still to be visited, the next expression on top. -/
  stack : List Expression
  /-- What has been visited. -/
  found : List Expression

namespace Traversal

/-- Before the first round. -/
def start (e : Expression) : Traversal := ⟨[e], []⟩

/-- The stack with some more expressions on it, pushed one after the other. -/
def push (stack parts : List Expression) : List Expression :=
  parts.foldl (fun stack part => part :: stack) stack

/-- One round, if anything is left on the stack. The parts of the visited expression are pushed from
the last to the first, so that the first of them is visited next. -/
def step? : Traversal → Option Traversal
  | ⟨[], _⟩ => none
  | ⟨e :: rest, found⟩ => some ⟨push rest e.evaluated.reverse, found ++ [e]⟩

/-- The second traversal is the first one a round later. -/
def Step (t next : Traversal) : Prop := t.step? = some next

/-- How many expressions are still to be visited. -/
def remaining (t : Traversal) : Nat := (t.stack.flatMap Expression.reachable).length

/-- What will have been visited when the stack is empty. -/
def result (t : Traversal) : List Expression := t.found ++ t.stack.flatMap Expression.reachable

theorem push_reverse (stack parts : List Expression) :
    push stack parts.reverse = parts ++ stack := by
  simp [push]

/-- A round takes one expression out of what recursion finds on the stack. -/
theorem Step.flatMap_reachable {t next : Traversal} (h : t.Step next) :
    ∃ e, next.found = t.found ++ [e] ∧ t.stack.flatMap Expression.reachable =
      e :: next.stack.flatMap Expression.reachable := by
  obtain ⟨stack, found⟩ := t
  cases stack with
  | nil => cases h
  | cons e rest =>
    cases h
    refine ⟨e, rfl, ?_⟩
    rw [push_reverse, List.flatMap_append, List.flatMap_cons, Expression.reachable_eq,
      List.cons_append]

theorem remaining_step {t next : Traversal} (h : t.Step next) :
    t.remaining = next.remaining + 1 := by
  obtain ⟨e, -, hstack⟩ := h.flatMap_reachable
  rw [remaining, hstack, List.length_cons, remaining]

theorem result_step {t next : Traversal} (h : t.Step next) : next.result = t.result := by
  obtain ⟨e, hfound, hstack⟩ := h.flatMap_reachable
  rw [result, result, hfound, hstack, List.append_assoc, List.singleton_append]

/-- No loop goes on forever, whatever is on its stack. -/
theorem wellFounded_step : WellFounded fun next t : Traversal => t.Step next := by
  refine Subrelation.wf ?_ (measure remaining).wf
  intro next t h
  show next.remaining < t.remaining
  rw [remaining_step h]
  exact Nat.lt_succ_self _

/-- What is found when the loop ends. -/
def run (t : Traversal) : List Expression :=
  match _h : t.step? with
  | none => t.found
  | some next => next.run
termination_by t.remaining
decreasing_by
  rw [remaining_step _h]
  exact Nat.lt_succ_self _

theorem run_eq_result (t : Traversal) : t.run = t.result := by
  induction t using wellFounded_step.induction with
  | _ t ih =>
    rw [run]
    split
    next hend =>
      obtain ⟨stack, found⟩ := t
      cases stack with
      | nil => simp [result]
      | cons => cases hend
    next next hstep => rw [ih next hstep, result_step hstep]

/-- The loop ends for every expression. It finds the expression and behind it, part by part, what it
finds in its evaluated parts. So there is a side effect in an expression exactly if there is one in
the expression itself or in one of its evaluated parts. -/
theorem run_start (e : Expression) :
    WellFounded (fun next t : Traversal => t.Step next) ∧
    (start e).run = e.reachable ∧
    (start e).run = e :: e.evaluated.flatMap (fun part => (start part).run) ∧
    e.evaluated = e.children.filterMap e.evaluatedChild? ∧
    (e.containsMutating = true ↔
      e.isMutating = true ∨ ∃ part ∈ e.evaluated, part.containsMutating = true) := by
  have hrun (e : Expression) : (start e).run = e.reachable := by
    rw [run_eq_result, result]
    exact List.append_nil _
  refine ⟨wellFounded_step, hrun e, ?_, e.evaluated_eq_children,
    Expression.containsMutating_iff_isMutating_or⟩
  simp only [hrun]
  exact e.reachable_eq

end Traversal

end Downlevel
