import Downlevel.Proofs.Placement

/-!
# Where the statements of a tree are written

Statements and blocks are parts of skeletons just like expressions are. So they are written at sites
of their own, wherever the tree has them.

Main statement: apart from dotted names, every statement, block and expression of a tree is written
at some site of the tree (`Site.exists_holds`).
-/

namespace Downlevel

namespace Node

/-- The node is a name, or an expression that is one. -/
def IsName : Node → Prop
  | name _ => True
  | expression e => (DottedName.ofExpression? e).isSome
  | _ => False

/-- The node is taken over into the skeleton of its parent. -/
def IsTakenOver : Node → Prop
  | expression _ => False
  | statement _ => False
  | block _ => False
  | _ => True

theorem IsName.child {n child : Node} (h : n.IsName) (hchild : child ∈ n.children) :
    child.IsName := by
  cases n with
  | name n =>
    obtain rfl := List.mem_singleton.mp hchild
    exact n.isSome_ofExpression?_toExpression
  | expression e =>
    cases e with
    | identifier name => cases hchild
    | member object dot name =>
      obtain rfl := List.mem_singleton.mp hchild
      rw [IsName, DottedName.ofExpression?, Option.isSome_map] at h
      exact h
    | _ => cases h
  | _ => cases h

theorem IsName.holds {n inner : Node} (h : n.IsName) (hinner : n.Holds inner) : inner.IsName := by
  induction hinner with
  | self => exact h
  | child hchild _ ih => exact ih (h.child hchild)

/-- How the child of a node is written: as a part of the node's skeleton, as a stretch of it, or
within a name. -/
def WrittenIn (scope : Scope) (n child : Node) : Prop :=
  (∃ part literals, .part part literals ∈ n.slots scope ∧ part.tree.node = child) ∨
  (child.IsTakenOver ∧ ∃ inner, child.slots inner ⊆ n.slots scope) ∨ child.IsName

namespace WrittenIn

variable {scope : Scope} {n child : Node}

theorem operand {e : Expression} (h : Slot.operand scope e ∈ n.slots scope) :
    WrittenIn scope n (expression e) :=
  .inl ⟨⟨scope, none, .expression e⟩, 0, h, rfl⟩

theorem deferred {e : Expression} (h : Slot.deferred scope e ∈ n.slots scope) :
    WrittenIn scope n (expression e) :=
  .inl ⟨⟨scope, none, .expression e⟩, 1, h, rfl⟩

theorem statement {s : Statement} (h : Slot.statement scope s ∈ n.slots scope) :
    WrittenIn scope n (statement s) :=
  .inl ⟨⟨scope, none, .statement s⟩, 0, h, rfl⟩

theorem block (ownerLine : Nat) {b : Block} (h : Slot.block scope ownerLine b ∈ n.slots scope) :
    WrittenIn scope n (block b) :=
  .inl ⟨⟨scope, some ownerLine, .block b⟩, 0, h, rfl⟩

theorem stretch (inner : Scope) (htaken : child.IsTakenOver)
    (h : child.slots inner ⊆ n.slots scope) : WrittenIn scope n child :=
  .inr (.inl ⟨htaken, inner, h⟩)

theorem name {className : DottedName} : WrittenIn scope n (name className) := .inr (.inr trivial)

end WrittenIn

section

variable {scope : Scope}

/-- Operands are parts, with or without a function literal around them. -/
theorem writtenIn_operand {e operand : Expression} (h : expression operand ∈ e.children) :
    WrittenIn scope (expression e) (expression operand) := by
  have hslot : (expression operand).IsName ∨ Slot.operand scope operand ∈ e.slots scope ∨
      Slot.deferred scope operand ∈ e.slots scope := by
    cases e with
    | member object dot name =>
      obtain rfl : operand = object := by simpa [Expression.children] using h
      rw [Expression.slots]
      split
      next hpiece =>
        have hname := Expression.isSome_ofExpression?_of_flattened? hpiece
        rw [DottedName.ofExpression?, Option.isSome_map] at hname
        exact .inl hname
      next => exact .inr (.inl List.mem_cons_self)
    | conditional | coalesce =>
      rw [Expression.slots]
      simp [Expression.children] at h
      split <;> simp <;> grind
    | _ =>
      right
      left
      simp [Expression.children, Expression.slots] at h ⊢
      all_goals grind
  rcases hslot with hname | hoperand | hdeferred
  · exact .inr (.inr hname)
  · exact .operand hoperand
  · exact .deferred hdeferred

theorem writtenIn_expression {e : Expression} {child : Node} (h : child ∈ e.children) :
    WrittenIn scope (expression e) child := by
  cases e with
  | function f =>
    obtain rfl := List.mem_singleton.mp h
    exact .stretch scope trivial (List.Subset.refl _)
  | comment c =>
    obtain rfl := List.mem_singleton.mp h
    exact .stretch scope trivial (List.Subset.refl c.slots)
  | record opening members closing =>
    obtain ⟨m, hm, rfl⟩ := List.mem_map.mp h
    refine .stretch scope trivial ?_
    intro slot hslot
    have hmember : slot ∈ members.flatMap (Member.slots scope) :=
      List.mem_flatMap_of_mem hm hslot
    simp [slots, Expression.slots, hmember]
  | template opening parts closing =>
    obtain ⟨part, hpart, rfl⟩ := List.mem_map.mp h
    refine .stretch scope trivial ?_
    cases part with
    | text token => exact List.nil_subset _
    | expression e =>
      have hoperands : (templateOperands scope parts).isEmpty = false := by
        rw [List.isEmpty_eq_false_iff]
        exact Expression.templateOperands_ne_nil hpart
      have hslots : Slot.operand scope e ∈ parts.flatMap (TemplatePart.slots scope) :=
        List.mem_flatMap_of_mem hpart (by simp [TemplatePart.slots])
      intro slot hslot
      obtain rfl := List.mem_singleton.mp hslot
      simpa [slots, Expression.slots, hoperands] using hslots
  | construct keyword className opening arguments closing =>
    rcases List.mem_cons.mp h with rfl | hargument
    · exact .name
    · obtain ⟨argument, -, rfl⟩ := List.mem_map.mp hargument
      exact writtenIn_operand h
  | _ =>
    obtain ⟨operand, rfl⟩ : ∃ operand, child = expression operand := by
      simp [Expression.children] at h
      all_goals grind
    exact writtenIn_operand h

/-- A function is written with or without a name. -/
theorem slots_function_subset (name? : Option Piece) (f : FunctionLiteral) :
    (function f).slots scope ⊆ f.slots scope name? := by
  intro slot hslot
  simp [slots, FunctionLiteral.slots] at hslot ⊢
  grind

theorem writtenIn_statement {s : Statement} {child : Node} (h : child ∈ s.children) :
    WrittenIn scope (statement s) child := by
  cases s with
  | assignment a =>
    obtain rfl := List.mem_singleton.mp h
    exact .stretch scope trivial (List.Subset.refl (a.slots scope))
  | comment c =>
    obtain rfl := List.mem_singleton.mp h
    exact .stretch scope trivial (List.Subset.refl c.slots)
  | branch first condition then? body elseIfs else? end? =>
    simp [Statement.children] at h
    rcases h with rfl | rfl | ⟨clause, hclause, rfl⟩ | ⟨clause, hclause, rfl⟩
    · exact .operand (by simp [slots, Statement.slots])
    · let s := Statement.branch first condition then? body elseIfs else? end?
      exact .block s.range.start.line (by simp [s, slots, Statement.slots])
    · refine .stretch scope trivial fun slot hslot => ?_
      have hmem : slot ∈ elseIfs.flatMap (ElseIf.slots scope) :=
        List.mem_flatMap_of_mem hclause hslot
      simp [slots, Statement.slots, hmem]
    · refine .stretch scope trivial fun slot hslot => ?_
      have hmem : slot ∈ else?.toList.flatMap (Else.slots scope) :=
        List.mem_flatMap_of_mem (by simp [hclause]) hslot
      simp [slots, Statement.slots, hmem]
  | forLoop first counter toToken limit step? body endToken =>
    simp [Statement.children] at h
    rcases h with rfl | rfl | ⟨step, hstep, rfl⟩ | rfl
    · refine .stretch scope trivial fun slot (hslot : slot ∈ counter.slots scope) => ?_
      simp [slots, Statement.slots, hslot]
    · exact .operand (by simp [slots, Statement.slots])
    · refine .stretch scope trivial fun slot hslot => ?_
      have hmem : slot ∈ step?.toList.flatMap (ForStep.slots scope) :=
        List.mem_flatMap_of_mem (by simp [hstep]) hslot
      simp [slots, Statement.slots, hmem]
    · let s := Statement.forLoop first counter toToken limit step? body endToken
      exact .block s.range.start.line (by simp [s, slots, Statement.slots])
  | print first items =>
    obtain ⟨item, hitem, rfl⟩ := List.mem_map.mp h
    refine .stretch scope trivial fun slot hslot => ?_
    have hmem : slot ∈ items.flatMap (PrintItem.slots scope) :=
      List.mem_flatMap_of_mem hitem hslot
    simp [slots, Statement.slots, hmem]
  | function name f =>
    obtain rfl := List.mem_singleton.mp h
    exact .stretch scope trivial (slots_function_subset _ f)
  | namespaceBlock first name body endToken =>
    simp [Statement.children] at h
    rcases h with rfl | rfl
    · exact .name
    · exact .stretch (scope.inside name) trivial (List.Subset.refl _)
  | returning first value? =>
    obtain ⟨value, hvalue, rfl⟩ := List.mem_map.mp h
    have hmem := List.mem_map_of_mem (f := Slot.operand scope) hvalue
    exact .operand (List.mem_cons_of_mem _ hmem)
  | forEach first item inToken target body endToken =>
    let s := Statement.forEach first item inToken target body endToken
    simp [Statement.children] at h
    rcases h with rfl | rfl
    · exact .operand (by simp [slots, Statement.slots])
    · exact .block s.range.start.line (by simp [s, slots, Statement.slots])
  | whileLoop first condition body endToken =>
    let s := Statement.whileLoop first condition body endToken
    simp [Statement.children] at h
    rcases h with rfl | rfl
    · exact .operand (by simp [slots, Statement.slots])
    · exact .block s.range.start.line (by simp [s, slots, Statement.slots])
  | tryCatch first body catchToken exceptionName handler endToken =>
    let s := Statement.tryCatch first body catchToken exceptionName handler endToken
    simp [Statement.children] at h
    rcases h with rfl | rfl
    · exact .block s.range.start.line (by simp [s, slots, Statement.slots])
    · exact .block (catchToken.range.cover exceptionName.range).start.line
        (by simp [slots, Statement.slots])
  | _ =>
    obtain ⟨operand, rfl⟩ : ∃ operand, child = expression operand := by
      simp [Statement.children] at h
      all_goals grind
    refine .operand ?_
    simp [Statement.children, slots, Statement.slots] at h ⊢
    all_goals grind

theorem writtenIn_function {f : FunctionLiteral} {child : Node}
    (h : child ∈ (function f).children) : WrittenIn scope (function f) child := by
  rw [children, FunctionLiteral.header, List.mem_append, List.mem_append, List.mem_map,
    List.mem_map, List.mem_singleton] at h
  rcases h with (⟨p, hp, rfl⟩ | ⟨clause, -, rfl⟩) | rfl
  · refine .stretch scope trivial fun slot hslot => ?_
    have hmem : slot ∈ f.parameters.flatMap (Parameter.slots scope) :=
      List.mem_flatMap_of_mem hp hslot
    simp [slots, FunctionLiteral.slots, hmem]
  · exact .stretch scope trivial (List.nil_subset _)
  · exact .block f.range.start.line (by simp [slots, FunctionLiteral.slots])

/-- Every child of a node is written in the node. -/
theorem writtenIn {n child : Node} (h : child ∈ n.children) : WrittenIn scope n child := by
  cases n with
  | expression e => exact writtenIn_expression h
  | statement s => exact writtenIn_statement h
  | function f => exact writtenIn_function h
  | parameter p =>
    rw [children, Parameter.children, List.mem_append, List.mem_map, List.mem_map] at h
    rcases h with ⟨value, hvalue, rfl⟩ | ⟨clause, -, rfl⟩
    · have hmem := List.mem_map_of_mem (f := Slot.operand scope) hvalue
      exact .operand (by simp [slots, Parameter.slots, hmem])
    · exact .stretch scope trivial (List.nil_subset _)
  | name n =>
    obtain rfl := List.mem_singleton.mp h
    exact .inr (.inr n.isSome_ofExpression?_toExpression)
  | member m =>
    cases m with
    | pair key colon value =>
      obtain rfl := List.mem_singleton.mp h
      exact .operand (by simp [slots, Member.slots])
    | comment c =>
      obtain rfl := List.mem_singleton.mp h
      exact .stretch scope trivial (List.Subset.refl c.slots)
  | part part =>
    cases part with
    | text token => cases h
    | expression e =>
      obtain rfl := List.mem_singleton.mp h
      exact .operand List.mem_cons_self
  | item item =>
    cases item with
    | separator token => cases h
    | expression e =>
      obtain rfl := List.mem_singleton.mp h
      exact .operand List.mem_cons_self
  | assignment | step =>
    obtain rfl := List.mem_singleton.mp h
    exact .operand (by simp [slots, Assignment.slots, ForStep.slots])
  | elseIf clause =>
    simp [children] at h
    rcases h with rfl | rfl
    · exact .operand (by simp [slots, ElseIf.slots])
    · exact .block clause.range.start.line (by simp [slots, ElseIf.slots])
  | otherwise clause =>
    obtain rfl := List.mem_singleton.mp h
    exact .block clause.range.start.line (by simp [slots, Else.slots])
  | block | body =>
    obtain ⟨s, hs, rfl⟩ := List.mem_map.mp h
    exact .statement (List.mem_map_of_mem hs)
  | typeClause | comment => cases h

end

end Node

/-- A node that has a site of its own, and is no name. -/
def Tree.IsProper (t : Tree) : Prop := ¬ t.node.IsTakenOver ∧ ¬ t.node.IsName

namespace Site

/-- What lies below a node is written in every site in which the node is. -/
theorem exists_holds_of_slots {site : Site} {scope : Scope} {n : Node} {t : Tree} (ht : t.IsProper)
    (h : n.Holds t.node) (hne : n ≠ t.node) (hslots : n.slots scope ⊆ site.slots) :
    ∃ inner count, site.Holds inner count ∧ inner.tree.node = t.node := by
  generalize hinner : t.node = inner at h hne
  induction h generalizing site scope with
  | self n => exact absurd rfl hne
  | @child n child inner hchild hrest ih =>
    subst hinner
    have hwritten : Node.WrittenIn scope n child := Node.writtenIn hchild
    rcases hwritten with ⟨part, literals, hpart, rfl⟩ | ⟨htaken, childScope, hsubset⟩ | hname
    · by_cases heq : part.tree.node = t.node
      · exact ⟨part, _, .part (hslots hpart) (.self part), heq⟩
      · have hpartSlots : part.tree.node.slots part.scope ⊆ part.slots :=
          part.slots_eq ▸ List.Subset.refl _
        obtain ⟨inner, count, hholds, hnode⟩ := ih hpartSlots rfl heq
        exact ⟨inner, _, .part (hslots hpart) hholds, hnode⟩
    · refine ih (List.Subset.trans hsubset hslots) rfl ?_
      rintro rfl
      exact ht.1 htaken
    · exact absurd (hname.holds hrest) ht.2

/-- Wherever a tree has a statement, a block or an expression that is no name, a site is written for
it. -/
theorem exists_holds (root : Site) {t : Tree} (ht : t.IsProper)
    (h : root.tree.node.Holds t.node) :
    ∃ site count, root.Holds site count ∧ site.tree = t := by
  obtain ⟨site, count, hholds, hnode⟩ : ∃ site count, root.Holds site count ∧
      site.tree.node = t.node := by
    by_cases heq : root.tree.node = t.node
    · exact ⟨root, 0, .self root, heq⟩
    · have hslots : root.tree.node.slots root.scope ⊆ root.slots :=
        root.slots_eq ▸ List.Subset.refl _
      exact exists_holds_of_slots ht h heq hslots
  refine ⟨site, count, hholds, ?_⟩
  cases htree : site.tree <;> cases t <;> simp_all [Tree.node]

end Site

end Downlevel
