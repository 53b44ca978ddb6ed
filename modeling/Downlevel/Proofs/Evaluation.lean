import Mathlib.Tactic
import Downlevel.Tree.Reach

/-!
# What an expression evaluates

The walk that looks for side effects and for names goes through whole trees at once. Here it is
taken apart into its single steps, from an expression to the sub-expressions that are evaluated with
it: the walk reaches exactly what steps lead to.
-/

namespace Downlevel

namespace Expression

/-- To evaluate the expression is to evaluate the other one, too. -/
def Evaluates : Expression → Expression → Prop :=
  Relation.ReflTransGen fun e part => part ∈ e.evaluated

/-- Something that is evaluated with the expression may have a side effect. -/
def MayMutate (e : Expression) : Prop := ∃ inner, e.Evaluates inner ∧ inner.isMutating = true

/-! ## The walk step by step -/

theorem reachableArguments_eq (arguments : List Expression) :
    reachableArguments arguments = arguments.flatMap reachable := by
  induction arguments with
  | nil => rfl
  | cons argument rest ih => rw [reachableArguments, ih, List.flatMap_cons]

theorem reachableElements_eq (elements : List Expression) :
    reachableElements elements = (elements.filter (!·.isComment)).flatMap reachable := by
  induction elements with
  | nil => rfl
  | cons element rest ih =>
    rw [reachableElements, ih]
    cases h : element.isComment <;> simp [h]

theorem reachableMembers_eq (members : List Member) :
    reachableMembers members = (members.filterMap Member.value?).flatMap reachable := by
  induction members with
  | nil => rfl
  | cons member rest ih =>
    cases member with
    | pair key colon value => simp [reachableMembers, Member.value?, ih]
    | comment c => exact ih

theorem reachableParts_eq (parts : List TemplatePart) :
    reachableParts parts = (parts.filterMap TemplatePart.expression?).flatMap reachable := by
  induction parts with
  | nil => rfl
  | cons part rest ih =>
    cases part with
    | text token => exact ih
    | expression e => simp [reachableParts, TemplatePart.expression?, ih]

/-- The walk reaches the expression itself and whatever it reaches from a sub-expression. -/
theorem reachable_eq (e : Expression) : e.reachable = e :: e.evaluated.flatMap reachable := by
  cases e with
  | call | callfunc | construct => simp [reachable, evaluated, reachableArguments_eq]
  | array => simp [reachable, evaluated, reachableElements_eq]
  | record => simp [reachable, evaluated, reachableMembers_eq]
  | template => simp [reachable, evaluated, reachableParts_eq]
  | _ => simp [reachable, evaluated]

/-- What is evaluated with an expression is smaller. -/
theorem sizeOf_evaluated_lt {e part : Expression} (h : part ∈ e.evaluated) :
    sizeOf part < sizeOf e := by
  cases e with
  | function | identifier | literal | comment => cases h
  | unary | member | xmlAttribute | group =>
    obtain rfl := List.mem_singleton.mp h
    simp <;> omega
  | binary | index | coalesce =>
    obtain rfl | rfl := List.mem_pair.mp h <;> simp <;> omega
  | conditional =>
    rw [evaluated, List.mem_cons, List.mem_pair] at h
    obtain rfl | rfl | rfl := h <;> simp <;> omega
  | call | callfunc =>
    obtain rfl | h := List.mem_cons.mp h
    · simp
      omega
    · have := List.sizeOf_lt_of_mem h
      simp
      omega
  | construct =>
    rw [evaluated] at h
    have := List.sizeOf_lt_of_mem h
    simp
    omega
  | array =>
    have := List.sizeOf_lt_of_mem (List.mem_of_mem_filter h)
    simp
    omega
  | record =>
    -- a comment has no value, so the member is a pair
    obtain ⟨member, hmember, hvalue⟩ := List.mem_filterMap.mp h
    have := List.sizeOf_lt_of_mem hmember
    cases member with
    | comment => cases hvalue
    | pair =>
      cases hvalue
      simp at this ⊢
      omega
  | template =>
    obtain ⟨inside, hinside, hvalue⟩ := List.mem_filterMap.mp h
    have := List.sizeOf_lt_of_mem hinside
    cases inside with
    | text => cases hvalue
    | expression =>
      cases hvalue
      simp at this ⊢
      omega

/-- The walk reaches what the expression evaluates. -/
theorem mem_reachable_iff {e inner : Expression} : inner ∈ e.reachable ↔ e.Evaluates inner := by
  constructor
  · intro h
    -- every step of the walk leads to something smaller
    induction e using WellFounded.induction (measure (sizeOf : Expression → Nat)).wf with
    | _ e ih =>
      rw [reachable_eq, List.mem_cons, List.mem_flatMap] at h
      obtain rfl | ⟨part, hpart, hinner⟩ := h
      · exact .refl
      · exact .head hpart (ih part (sizeOf_evaluated_lt hpart) hinner)
  · intro h
    induction h using Relation.ReflTransGen.head_induction_on with
    | refl =>
      rw [reachable_eq]
      exact List.mem_cons_self
    | @head e part hpart _ ih =>
      rw [reachable_eq]
      exact List.mem_cons_of_mem e (List.mem_flatMap.mpr ⟨part, hpart, ih⟩)

theorem containsMutating_iff {e : Expression} : e.containsMutating = true ↔ e.MayMutate := by
  simp [containsMutating, MayMutate, List.any_eq_true, mem_reachable_iff]

/-! ## Deferred operands -/

/-- The operands that are put into function literals: those that may be skipped, if a side effect
may depend on it. -/
def deferredOperands : Expression → List Expression
  | conditional _ _ consequent _ alternate =>
    if consequent.containsMutating || alternate.containsMutating then [consequent, alternate]
    else []
  | coalesce left _ right =>
    if left.containsMutating || right.containsMutating then [right] else []
  | _ => []

/-- The other operands, which are evaluated where they are written. -/
def directOperands : Expression → List Expression
  | conditional test _ consequent _ alternate =>
    if consequent.containsMutating || alternate.containsMutating then [test]
    else [test, consequent, alternate]
  | coalesce left _ right =>
    if left.containsMutating || right.containsMutating then [left] else [left, right]
  | e => e.evaluated

theorem evaluated_eq (e : Expression) : e.evaluated = e.directOperands ++ e.deferredOperands := by
  cases e with
  | conditional | coalesce =>
    rw [evaluated, directOperands, deferredOperands]
    split <;> rfl
  | _ => simp [directOperands, deferredOperands]

/-- The inner expression is evaluated with the outer one, and lies in so many deferred operands of
what is evaluated with that. -/
inductive Encloses : Expression → Expression → Nat → Prop
  | self (e : Expression) : Encloses e e 0
  | direct {e operand inner : Expression} {count : Nat} : operand ∈ e.directOperands →
      Encloses operand inner count → Encloses e inner count
  | deferred {e operand inner : Expression} {count : Nat} : operand ∈ e.deferredOperands →
      Encloses operand inner count → Encloses e inner (count + 1)

theorem Encloses.evaluates {e inner : Expression} {count : Nat} (h : e.Encloses inner count) :
    e.Evaluates inner := by
  induction h with
  | self e => exact .refl
  | direct hoperand _ ih =>
    refine .head ?_ ih
    rw [evaluated_eq]
    exact List.mem_append_left _ hoperand
  | deferred hoperand _ ih =>
    refine .head ?_ ih
    rw [evaluated_eq]
    exact List.mem_append_right _ hoperand

/-- Whatever is evaluated lies in some number of deferred operands. -/
theorem Evaluates.encloses {e inner : Expression} (h : e.Evaluates inner) :
    ∃ count, e.Encloses inner count := by
  induction h using Relation.ReflTransGen.head_induction_on with
  | refl => exact ⟨0, .self inner⟩
  | head hpart _ ih =>
    obtain ⟨count, ih⟩ := ih
    rw [evaluated_eq] at hpart
    rcases List.mem_append.mp hpart with hpart | hpart
    · exact ⟨count, .direct hpart ih⟩
    · exact ⟨count + 1, .deferred hpart ih⟩

end Expression

end Downlevel
