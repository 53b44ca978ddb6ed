import Downlevel.Proofs.Deferral
import Downlevel.Tree.Node

/-!
# Where the expressions of a tree are written

The skeletons of a tree say what is written, the children of its nodes say what it consists of. The
two differ: the parts of a skeleton skip nodes, such as the parameters of a function, which are
taken over into the skeleton of their parent, and a dotted name may be written as one identifier,
without the names before it.

Main statement: apart from dotted names, every expression of a tree is written at some site of the
tree, and no other expression is (`Site.writes_iff_holds`).
-/

namespace Downlevel

/-! ## Skeletons of nodes -/

/-- The skeleton of a node, of whatever kind. -/
def Node.slots (scope : Scope) : Node → List Slot
  | expression e => e.slots scope
  | function f => f.slots scope none
  | parameter p => p.slots scope
  | typeClause _ => []
  | name _ => []
  | member m => m.slots scope
  | part (.expression e) => [.operand scope e]
  | part (.text _) => []
  | assignment a => a.slots scope
  | block b => b.statements.map (Slot.statement scope)
  | elseIf clause => clause.slots scope
  | otherwise clause => clause.slots scope
  | step s => s.slots scope
  | item i => i.slots scope
  | statement s => s.slots scope
  | body statements => statements.map (Slot.statement scope)
  | comment c => c.slots

/-- The scope of the children. -/
def Node.childScope (scope : Scope) : Node → Scope
  | statement (.namespaceBlock _ enclosing _ _) => scope.inside enclosing
  | _ => scope

/-- The tree as a node. -/
def Tree.node : Tree → Node
  | body b => .body b
  | block b => .block b
  | statement s => .statement s
  | expression e => .expression e

theorem Site.slots_eq (site : Site) : site.slots = site.tree.node.slots site.scope := by
  obtain ⟨scope, ownerLine?, tree⟩ := site
  cases tree <;> rfl

/-! ## Expressions in a skeleton -/

/-- The expression is written somewhere in the site. -/
def Site.Writes (site : Site) (e : Expression) : Prop :=
  ∃ inner count, site.Holds inner count ∧ inner.tree = .expression e

namespace Slot

variable {e : Expression}

/-- The entry is a part in which the expression is written. -/
def Writes (e : Expression) : Slot → Prop
  | own _ => False
  | part site _ => site.Writes e

/-- The expression is written in a part of the skeleton. -/
def Written (e : Expression) (slots : List Slot) : Prop := ∃ slot ∈ slots, slot.Writes e

@[simp] theorem written_nil : ¬ Written e [] := by
  simp [Written]

@[simp] theorem written_cons {slot : Slot} {rest : List Slot} :
    Written e (slot :: rest) ↔ slot.Writes e ∨ Written e rest := by
  simp [Written]

@[simp] theorem written_append {slots more : List Slot} :
    Written e (slots ++ more) ↔ Written e slots ∨ Written e more := by
  simp [Written, or_and_right, exists_or]

@[simp] theorem written_map {α : Type} {f : α → Slot} {list : List α} :
    Written e (list.map f) ↔ ∃ a ∈ list, (f a).Writes e := by
  simp [Written]

@[simp] theorem written_flatMap {α : Type} {f : α → List Slot} {list : List α} :
    Written e (list.flatMap f) ↔ ∃ a ∈ list, Written e (f a) := by
  simp only [Written, List.mem_flatMap]
  grind

end Slot

open Slot (Written)

theorem Site.writes_iff {e : Expression} (site : Site) :
    site.Writes e ↔ site.tree = .expression e ∨ Written e site.slots := by
  constructor
  · rintro ⟨inner, count, hholds, htree⟩
    cases hholds with
    | self => exact .inl htree
    | part hpart hrest => exact .inr ⟨_, hpart, inner, _, hrest, htree⟩
  · rintro (htree | ⟨slot, hslot, hwrites⟩)
    · exact ⟨site, 0, .self site, htree⟩
    · cases slot with
      | own => cases hwrites
      | part part literals =>
        obtain ⟨inner, count, hholds, htree⟩ := hwrites
        exact ⟨inner, literals + count, .part hslot hholds, htree⟩

namespace Slot

variable {e : Expression} (scope : Scope)

@[simp] theorem not_writes_own (piece : Piece) : ¬ (own piece).Writes e := id

@[simp] theorem not_writes_token (t : Token) : ¬ (token t).Writes e := id

theorem not_written_tokens (t? : Option Token) : ¬ Written e (tokens t?) := by
  simp [tokens]

@[simp] theorem writes_operand (operand : Expression) :
    (Slot.operand scope operand).Writes e ↔ operand = e ∨ Written e (operand.slots scope) := by
  refine (Site.writes_iff _).trans (or_congr_left ?_)
  exact Iff.of_eq (Tree.expression.injEq operand e)

@[simp] theorem writes_deferred (operand : Expression) :
    (deferred scope operand).Writes e ↔ operand = e ∨ Written e (operand.slots scope) :=
  writes_operand scope operand

@[simp] theorem writes_statement (s : Statement) :
    (statement scope s).Writes e ↔ Written e (s.slots scope) := by
  refine (Site.writes_iff _).trans (or_iff_right ?_)
  rintro ⟨⟩

@[simp] theorem writes_block (ownerLine : Nat) (b : Block) :
    (block scope ownerLine b).Writes e ↔ Written e (b.statements.map (statement scope)) := by
  refine (Site.writes_iff _).trans (or_iff_right ?_)
  rintro ⟨⟩

end Slot

/-! ## Node by node -/

namespace DottedName

variable {e : Expression} {scope : Scope}

theorem isSome_ofExpression?_toExpression (n : DottedName) :
    (ofExpression? n.toExpression).isSome := by
  obtain ⟨root, links⟩ := n
  have hlinks (object : Expression) (hobject : (ofExpression? object).isSome) :
      (ofExpression? (links.foldl
        (fun object link => Expression.member object link.dot link.name) object)).isSome := by
    induction links generalizing object with
    | nil => exact hobject
    | cons link rest ih =>
      apply ih
      rwa [ofExpression?, Option.isSome_map]
  exact hlinks (.identifier root) rfl

theorem ne_of_isSome (he : ofExpression? e = none) {name : Expression}
    (hname : (ofExpression? name).isSome) : name ≠ e := by
  rintro rfl
  simp [he] at hname

/-- In a dotted name only dotted names are written. -/
theorem not_written (he : ofExpression? e = none) {name : Expression}
    (hname : (ofExpression? name).isSome) : ¬ Written e (name.slots scope) := by
  induction name using WellFounded.induction (measure (sizeOf : Expression → Nat)).wf with
  | _ name ih =>
    cases name with
    | identifier name => simp [Expression.slots]
    | member object dot name =>
      rw [Expression.slots]
      split
      · simp
      · rw [ofExpression?, Option.isSome_map] at hname
        have hobject :=
          ih object (Expression.sizeOf_evaluated_lt (List.mem_singleton_self object)) hname
        simp [hobject, ne_of_isSome he hname]
    | _ => cases hname

end DottedName

namespace Node

variable {e : Expression}

/-- The entries for the node in the skeleton of its parent: an expression is one part, and for other
nodes it makes no difference to what is written whether they are one. -/
def entries (scope : Scope) : Node → List Slot
  | expression e => [.operand scope e]
  | n => n.slots scope

theorem written_expression_iff (he : DottedName.ofExpression? e = none) (scope : Scope)
    (operand : Expression) :
    Written e (operand.slots scope) ↔ Written e (operand.children.flatMap (entries scope)) := by
  cases operand with
  | member object dot name =>
    rw [Expression.slots]
    split
    next piece hpiece =>
      have hname := Expression.isSome_ofExpression?_of_flattened? hpiece
      rw [DottedName.ofExpression?, Option.isSome_map] at hname
      simp [Expression.children, entries, DottedName.not_written he hname,
        DottedName.ne_of_isSome he hname]
    next => simp [Expression.children, entries]
  | conditional test question consequent colon alternate =>
    rw [Expression.slots]
    split <;> simp [Expression.children, entries]
  | coalesce left operator right =>
    rw [Expression.slots]
    split <;> simp [Expression.children, entries]
  | template opening parts closing =>
    have hpart (part : TemplatePart) :
        Written e (part.slots scope) ↔ Written e ((Node.part part).entries scope) := by
      cases part <;> simp [TemplatePart.slots, entries, slots]
    rw [Expression.slots, Expression.children, List.flatMap_map, Slot.written_flatMap]
    split
    next hempty =>
      -- without operands there are only texts
      rw [List.isEmpty_iff] at hempty
      have htexts : ¬ ∃ part ∈ parts, Written e ((Node.part part).entries scope) := by
        rintro ⟨token | operand, hmem, hwritten⟩
        · simp [entries, slots] at hwritten
        · exact Expression.templateOperands_ne_nil hmem hempty
      simp [htexts]
    next => simp [hpart]
  | _ =>
    rw [Expression.slots]
    simp [Expression.children, entries, slots]

theorem written_parameter_iff (scope : Scope) (p : Parameter) :
    Written e (p.slots scope) ↔ Written e (p.children.flatMap (entries scope)) := by
  obtain ⟨name, default?, type?⟩ := p
  cases default? <;> cases type? <;>
    simp [Parameter.slots, Parameter.children, TypeClause.slots, entries, slots]

theorem not_written_typeClause (clause? : Option TypeClause) :
    ¬ Written e (TypeClause.slots clause?) := by
  cases clause? <;> simp [TypeClause.slots]

theorem written_function_iff (scope : Scope) (name? : Option Piece) (f : FunctionLiteral) :
    Written e (f.slots scope name?) ↔
      Written e ((function f).children.flatMap (entries scope)) := by
  have htype : ¬ Written e ((f.returnType?.toList.map typeClause).flatMap (entries scope)) := by
    simp [entries, slots]
  rw [children, FunctionLiteral.header, List.flatMap_append, List.flatMap_append]
  simp [FunctionLiteral.slots, not_written_typeClause, entries, slots]

theorem written_statement_iff (scope : Scope) (s : Statement) :
    Written e (s.slots scope) ↔
      Written e (s.children.flatMap (entries ((statement s).childScope scope))) := by
  cases s with
  | function name f =>
    have hfunction : Written e (f.slots scope none) ↔ _ := written_function_iff scope none f
    rw [Statement.slots, written_function_iff, ← hfunction]
    simp [Statement.children, childScope, entries, slots]
  | branch first condition then? body elseIfs else? end? =>
    rw [Statement.slots]
    simp [Statement.children, childScope, entries, slots, Slot.not_written_tokens]
  | returning first value? =>
    rw [Statement.slots]
    cases value? <;> simp [Statement.children, childScope, entries]
  | _ =>
    rw [Statement.slots]
    simp [Statement.children, childScope, entries, slots]

theorem written_iff (he : DottedName.ofExpression? e = none) (scope : Scope) (n : Node) :
    Written e (n.slots scope) ↔
      Written e (n.children.flatMap (entries (n.childScope scope))) := by
  cases n with
  | expression operand => exact written_expression_iff he scope operand
  | statement s => exact written_statement_iff scope s
  | function f => exact written_function_iff scope none f
  | parameter p => exact written_parameter_iff scope p
  | name n =>
    have hname := n.isSome_ofExpression?_toExpression
    simp [slots, children, entries, DottedName.not_written he hname,
      DottedName.ne_of_isSome he hname]
  | member a | part a | item a =>
    cases a <;>
      simp [slots, Member.slots, PrintItem.slots, children, Member.children,
        TemplatePart.children, PrintItem.children, childScope, entries]
  | assignment | elseIf | otherwise | step | block | body =>
    simp [slots, Assignment.slots, ElseIf.slots, Else.slots, ForStep.slots, children, childScope,
      Slot.not_written_tokens, entries]
  | typeClause | comment => simp [slots, children, Comment.slots]

theorem written_entries_iff (scope : Scope) (n : Node) :
    Written e (n.entries scope) ↔ n = expression e ∨ Written e (n.slots scope) := by
  cases n with
  | expression operand => simp [entries, slots]
  | _ => simp [entries]

/-- An expression that is no dotted name is written wherever the tree has it. -/
theorem written_entries_iff_holds (he : DottedName.ofExpression? e = none) (n : Node)
    (scope : Scope) : Written e (n.entries scope) ↔ n.Holds (expression e) := by
  induction n using Node.induction generalizing scope with
  | step n ih =>
    rw [written_entries_iff, written_iff he, Slot.written_flatMap]
    constructor
    · rintro (rfl | ⟨child, hchild, hwritten⟩)
      · exact .self _
      · exact .child hchild ((ih child hchild _).mp hwritten)
    · intro hholds
      cases hholds with
      | self => exact .inl rfl
      | child hchild hrest => exact .inr ⟨_, hchild, (ih _ hchild _).mpr hrest⟩

end Node

/-- An expression that is no dotted name is written at a site exactly if the tree there has it. -/
theorem Site.writes_iff_holds {e : Expression} (he : DottedName.ofExpression? e = none)
    (site : Site) : site.Writes e ↔ site.tree.node.Holds (.expression e) := by
  have htree : site.tree = .expression e ↔ site.tree.node = .expression e := by
    cases site.tree <;> simp [Tree.node]
  rw [site.writes_iff, site.slots_eq, htree, ← Node.written_entries_iff]
  exact Node.written_entries_iff_holds he _ _

end Downlevel
