import Downlevel.Proofs.Nesting

/-!
# No side effect before its time

An operand that may be skipped must not have its side effects when it is skipped. So it is put into
a function literal of its own, unless neither it nor what stands beside it may have a side effect.

Two countings meet here. In the source, `Encloses` counts the deferred operands that a
sub-expression lies in; in the text, `openLiterals` counts the function literals that are open. They
agree for everything that is evaluated, in whatever state a tree is emitted (`State.emit_defers`).
-/

namespace Downlevel

/-! ## From the source to the skeleton -/

namespace DottedName

/-- What is evaluated with a dotted name lies in no deferred operand. -/
theorem encloses_eq_zero {e inner : Expression} {count : Nat} (h : e.Encloses inner count)
    (hname : (ofExpression? e).isSome) : count = 0 := by
  induction h with
  | self => rfl
  | @direct e operand inner count hoperand _ ih =>
    cases e with
    | member object dot name =>
      obtain rfl := List.mem_singleton.mp hoperand
      rw [ofExpression?, Option.isSome_map] at hname
      exact ih hname
    | identifier => cases hoperand
    | _ => cases hname
  | @deferred e operand inner count hoperand _ _ =>
    cases e with
    | conditional | coalesce => cases hname
    | _ => cases hoperand

end DottedName

namespace Expression

variable {scope : Scope}

/-- Only a dotted name is flattened. -/
theorem isSome_ofExpression?_of_flattened? {e : Expression} {piece : Piece}
    (h : e.flattened? scope = some piece) : (DottedName.ofExpression? e).isSome := by
  cases e with
  | member object dot name =>
    rw [flattened?] at h
    split at h
    · cases h
    next chain hchain =>
      rw [DottedName.ofExpression?, hchain]
      rfl
  | _ => cases h

theorem templateOperands_ne_nil {parts : List TemplatePart} {e : Expression}
    (h : .expression e ∈ parts) : templateOperands scope parts ≠ [] := by
  induction parts with
  | nil => cases h
  | cons part rest ih =>
    cases part with
    | expression => simp [templateOperands]
    | text token =>
      obtain h | h := List.mem_cons.mp h
      · cases h
      · simp [templateOperands, ih h]

/-- An operand that is evaluated where it is written is a part of an expression that is not
flattened. -/
theorem operand_mem_slots {e operand : Expression} (hflat : e.flattened? scope = none)
    (h : operand ∈ e.directOperands) : .operand scope operand ∈ e.slots scope := by
  cases e with
  | function | identifier | literal | comment => cases h
  | member object dot name =>
    obtain rfl := List.mem_singleton.mp h
    simp [slots, hflat]
  | unary | xmlAttribute | group =>
    obtain rfl := List.mem_singleton.mp h
    simp [slots]
  | binary | index =>
    obtain rfl | rfl := List.mem_pair.mp h <;> simp [slots]
  | call | callfunc =>
    obtain rfl | harguments := List.mem_cons.mp h
    · simp [slots]
    · simp [slots, List.mem_map_of_mem harguments]
  | construct =>
    simp only [directOperands, evaluated] at h
    simp [slots, List.mem_map_of_mem h]
  | array =>
    simp [slots, List.mem_map_of_mem (List.mem_of_mem_filter h)]
  | record opening members closing =>
    obtain ⟨member, hmember, hvalue⟩ := List.mem_filterMap.mp h
    have hslot : .operand scope operand ∈ member.slots scope := by
      cases member with
      | comment => cases hvalue
      | pair =>
        cases hvalue
        simp [Member.slots]
    simp [slots, List.mem_flatMap_of_mem hmember hslot]
  | conditional | coalesce =>
    rw [directOperands] at h
    rw [slots]
    split <;> grind
  | template opening parts closing =>
    obtain ⟨part, hpart, hvalue⟩ := List.mem_filterMap.mp h
    cases part with
    | text => cases hvalue
    | expression =>
      cases hvalue
      have hslot : .operand scope operand ∈ TemplatePart.slots scope (.expression operand) := by
        simp [TemplatePart.slots]
      rw [slots, if_neg (by simp [templateOperands_ne_nil hpart])]
      exact List.mem_flatMap_of_mem hpart hslot

theorem deferred_mem_slots {e operand : Expression} (h : operand ∈ e.deferredOperands) :
    .deferred scope operand ∈ e.slots scope := by
  cases e with
  | conditional | coalesce =>
    rw [deferredOperands] at h
    rw [slots]
    split <;> grind
  | _ => cases h

theorem holds_of_direct {e operand : Expression} {site : Site} {count : Nat}
    (hflat : e.flattened? scope = none) (hoperand : operand ∈ e.directOperands)
    (h : Site.Holds ⟨scope, none, .expression operand⟩ site count) :
    Site.Holds ⟨scope, none, .expression e⟩ site count := by
  have hall : Site.Holds ⟨scope, none, .expression e⟩ site (0 + count) :=
    .part (operand_mem_slots hflat hoperand) h
  rwa [Nat.zero_add] at hall

theorem holds_of_deferred {e operand : Expression} {site : Site} {count : Nat}
    (hoperand : operand ∈ e.deferredOperands)
    (h : Site.Holds ⟨scope, none, .expression operand⟩ site count) :
    Site.Holds ⟨scope, none, .expression e⟩ site (count + 1) := by
  have hall : Site.Holds ⟨scope, none, .expression e⟩ site (1 + count) :=
    .part (deferred_mem_slots hoperand) h
  rwa [Nat.add_comm] at hall

/-- What an expression encloses in so many deferred operands its site holds in as many, unless a
dotted name that is flattened absorbs it: then it is that which the site holds. -/
theorem Encloses.holds {e inner : Expression} {count : Nat} (h : e.Encloses inner count) :
    ∃ whole, (whole = inner ∨ whole.flattened? scope ≠ none ∧ whole.Evaluates inner) ∧
      Site.Holds ⟨scope, none, .expression e⟩ ⟨scope, none, .expression whole⟩ count := by
  induction h with
  | self e => exact ⟨e, .inl rfl, .self _⟩
  | @direct e operand inner count hoperand hinner ih =>
    cases hflat : e.flattened? scope with
    | none =>
      obtain ⟨whole, hwhole, hholds⟩ := ih
      exact ⟨whole, hwhole, holds_of_direct hflat hoperand hholds⟩
    | some piece =>
      -- the identifier that is written instead stands for everything in the dotted name
      have hname := isSome_ofExpression?_of_flattened? hflat
      have hencloses := Encloses.direct hoperand hinner
      obtain rfl := DottedName.encloses_eq_zero hencloses hname
      exact ⟨e, .inr ⟨by simp [hflat], hencloses.evaluates⟩, .self _⟩
  | @deferred e operand inner count hoperand _ ih =>
    obtain ⟨whole, hwhole, hholds⟩ := ih
    exact ⟨whole, hwhole, holds_of_deferred hoperand hholds⟩

end Expression

/-! ## From pieces to fragments -/

namespace Piece

theorem renderAll_append (options : Options) (source : String) (depth : Nat)
    (pieces more : List Piece) :
    renderAll options source depth (pieces ++ more) =
      renderAll options source depth pieces ++ renderAll options source depth more :=
  List.flatMap_append

theorem renderAll_shift (options : Options) (source : String) (depth levels : Nat)
    (pieces : List Piece) :
    renderAll options source depth (pieces.map (shift levels)) =
      renderAll options source (depth + levels) pieces := by
  have hshift (piece : Piece) :
      (piece.shift levels).shift depth = piece.shift (depth + levels) := by
    rw [shift_shift, Nat.add_comm]
  simp [renderAll, List.flatMap_map, hshift]

theorem mapped_mem_renderAll {position : Position} {text : String} {pieces : List Piece}
    (options : Options) (source : String) (depth : Nat) (h : .written position text ∈ pieces) :
    .mapped position source text ∈ renderAll options source depth pieces :=
  List.mem_flatMap.mpr ⟨_, h, List.mem_singleton_self _⟩

end Piece

namespace State

variable {s : State} {tree : Tree} {pieces : List Piece} {count : Nat}

/-- Emitting the tree writes the pieces as a whole, at some depth, inside so many function literals
of deferred operands. -/
def Writes (s : State) (tree : Tree) (pieces : List Piece) (count : Nat) : Prop :=
  Balanced pieces ∧ ∃ before levels after,
    s.pieces tree = before ++ pieces.map (Piece.shift levels) ++ after ∧
    openLiterals 0 before = some count ∧
    (s.emit tree).1 = s.render before ++
      Piece.renderAll s.options s.source (s.depth + levels) pieces ++ s.render after

theorem writes_of_inside (h : Inside (s.pieces tree) pieces count) (hpieces : Balanced pieces) :
    s.Writes tree pieces count := by
  obtain ⟨before, levels, after, heq, hbefore⟩ := h
  refine ⟨hpieces, before, levels, after, heq, hbefore, ?_⟩
  have hemit : (s.emit tree).1 = s.render (s.pieces tree) := rfl
  rw [hemit, heq, render, Piece.renderAll_append, Piece.renderAll_append, Piece.renderAll_shift]
  rfl

/-- What is written with a position is one of the fragments, mapped to this position. -/
theorem Writes.mapped_mem {position : Position} {text : String} (h : s.Writes tree pieces count)
    (hpiece : .written position text ∈ pieces) :
    .mapped position s.source text ∈ (s.emit tree).1 := by
  obtain ⟨-, before, levels, after, -, -, hemit⟩ := h
  have hmapped := Piece.mapped_mem_renderAll s.options s.source (s.depth + levels) hpiece
  rw [hemit]
  exact List.mem_append_left _ (List.mem_append_right _ hmapped)

/-- What becomes of the operands that may be skipped, in a scope and inside so many function
literals. If a side effect may depend on them, each is the operand of a function literal of its own,
with the captured variables bound in it; otherwise they are passed to a helper as they are. -/
def DefersSkipped (s : State) (tree : Tree) (scope : Scope) (count : Nat) : Expression → Prop
  | .conditional test question consequent colon alternate =>
    let captured := scope.captured [consequent, alternate]
    let written := Expression.emit scope (.conditional test question consequent colon alternate)
    (consequent.MayMutate ∨ alternate.MayMutate →
      written = helperCall question.start .scopeSafeTernary [test.emit scope,
        Capture.scopeObject captured, Capture.deferred captured (consequent.emit scope),
        Capture.deferred captured (alternate.emit scope)] ∧
      s.Writes tree (consequent.emit scope) (count + 1) ∧
      s.Writes tree (alternate.emit scope) (count + 1)) ∧
    (¬ (consequent.MayMutate ∨ alternate.MayMutate) →
      written = helperCall question.start .simpleTernary
        [test.emit scope, consequent.emit scope, alternate.emit scope])
  | .coalesce left operator right =>
    let captured := scope.captured [right]
    let written := Expression.emit scope (.coalesce left operator right)
    (left.MayMutate ∨ right.MayMutate →
      written = helperCall operator.start .scopeSafeCoalesce [left.emit scope,
        Capture.scopeObject captured, Capture.deferred captured (right.emit scope)] ∧
      s.Writes tree (right.emit scope) (count + 1)) ∧
    (¬ (left.MayMutate ∨ right.MayMutate) →
      written = helperCall operator.start .simpleCoalesce [left.emit scope, right.emit scope])
  | _ => True

/-- A site that is written inside so many function literals treats its skippable operands so. -/
theorem defersSkipped {scope : Scope} {e : Expression}
    (h : Inside (s.pieces tree) (e.emit scope) count) : s.DefersSkipped tree scope count e := by
  have hwrites {operand : Expression} (hoperand : operand ∈ e.deferredOperands) :
      s.Writes tree (operand.emit scope) (count + 1) := by
    have hholds : Site.Holds ⟨scope, none, .expression e⟩ ⟨scope, none, .expression operand⟩ 1 :=
      Expression.holds_of_deferred hoperand (.self _)
    have hbalanced := Site.balanced ⟨scope, none, .expression operand⟩
    exact writes_of_inside (h.trans hholds.inside) hbalanced
  cases e with
  | conditional test question consequent colon alternate =>
    have hiff : (consequent.containsMutating || alternate.containsMutating) = true ↔
        consequent.MayMutate ∨ alternate.MayMutate := by
      rw [Bool.or_eq_true, Expression.containsMutating_iff, Expression.containsMutating_iff]
    rw [DefersSkipped, Expression.emit_conditional, ← hiff]
    refine ⟨fun hmutate => ⟨if_pos hmutate, ?_, ?_⟩, fun hmutate => if_neg hmutate⟩
    · exact hwrites (by simp [Expression.deferredOperands, hmutate])
    · exact hwrites (by simp [Expression.deferredOperands, hmutate])
  | coalesce left operator right =>
    have hiff : (left.containsMutating || right.containsMutating) = true ↔
        left.MayMutate ∨ right.MayMutate := by
      rw [Bool.or_eq_true, Expression.containsMutating_iff, Expression.containsMutating_iff]
    rw [DefersSkipped, Expression.emit_coalesce, ← hiff]
    refine ⟨fun hmutate => ⟨if_pos hmutate, ?_⟩, fun hmutate => if_neg hmutate⟩
    exact hwrites (by simp [Expression.deferredOperands, hmutate])
  | _ => trivial

/-- Whatever is written for a tree stands inside as many function literals as there are deferred
operands around it, counted from any site that holds it, and it is written once: as the one entry
that its owner's skeleton has for it. An operand that may be skipped is deferred exactly if it or
what stands beside it may have a side effect. -/
theorem emit_defers (s : State) (tree : Tree) {site : Site} {count : Nat}
    (hsite : (s.site tree).Holds site count) :
    s.Writes tree site.emit count ∧
    Woven 0 site.emit site.slots 0 ∧
    (∀ part literals, .part part literals ∈ site.slots → literals = 0 ∨
      literals = 1 ∧ ∃ operand ∈ site.deferredOperands, part.tree = .expression operand) ∧
    (∀ inner more, site.Holds inner more → Inside site.emit inner.emit more) ∧
    ∀ e, site.tree = .expression e → s.DefersSkipped tree site.scope count e ∧
      ∀ inner more, e.Encloses inner more → ∃ whole : Expression,
        (whole = inner ∨ whole.flattened? site.scope ≠ none ∧ whole.Evaluates inner) ∧
        Inside site.emit (whole.emit site.scope) more ∧
        s.Writes tree (whole.emit site.scope) (count + more) := by
  have hinside : Inside (s.pieces tree) site.emit count := hsite.inside
  refine ⟨writes_of_inside hinside site.balanced, site.woven, fun part literals hpart =>
    (site.allFit _ hpart).2, fun _ _ h => h.inside, ?_⟩
  obtain ⟨scope, ownerLine?, _⟩ := site
  rintro e rfl
  refine ⟨defersSkipped hinside, fun inner more hinner => ?_⟩
  obtain ⟨whole, hwhole, hholds⟩ := hinner.holds
  have hwritten : Inside (e.emit scope) (whole.emit scope) more := hholds.inside
  have hbalanced := Site.balanced ⟨scope, none, .expression whole⟩
  exact ⟨whole, hwhole, hwritten, writes_of_inside (hinside.trans hwritten) hbalanced⟩

/-- In `x ? (y ? f() : z) : z` the call stands inside two function literals. -/
theorem emit_defers_nested_call :
    let s : State := ⟨{}, .none, "", 0, [], {}⟩
    let name (text : String) : Expression := .identifier { (default : Token) with text }
    let call : Expression := .call (name "f") default [] default
    let inner : Expression := .conditional (name "y") default call default (name "z")
    let outer : Expression :=
      .conditional (name "x") default (.group default inner default) default (name "z")
    (s.site (.expression outer)).Holds (s.site (.expression call)) 2 ∧
      s.Writes (.expression outer) (call.emit s.scope) 2 := by
  intro s name call inner outer
  have hcall : call ∈ inner.deferredOperands := List.mem_cons_self
  have hinner : inner ∈ (Expression.group default inner default).directOperands :=
    List.mem_cons_self
  have hgroup : .group default inner default ∈ outer.deferredOperands := List.mem_cons_self
  have hholds : (s.site (.expression outer)).Holds (s.site (.expression call)) 2 :=
    Expression.holds_of_deferred hgroup (Expression.holds_of_direct rfl hinner
      (Expression.holds_of_deferred hcall (.self _)))
  exact ⟨hholds, (emit_defers s _ hholds).1⟩

end State

end Downlevel
