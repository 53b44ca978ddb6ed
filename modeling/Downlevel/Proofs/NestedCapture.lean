import Downlevel.Proofs.Rebinding

/-!
# Lowerings inside of lowerings

A deferred operand may itself contain a lowered `?:` or `??`, with a scope object of its own. That
object is built inside the function literal of the outer operand, which sees no variable of its
surroundings but those that it has bound again. So whatever the inner lowering captures, the outer
one has to capture as well, although each walks over operands of its own and takes the tokens that
it meets first.

It does, because a variable is captured for the sake of any place where it is read and not global,
and all such places of the inner operands are reachable from the outer one
(`Capture.nested_closed`).

Among the fragments of a tree, those of a deferred operand stand between the fragments that open its
function literal and those that close it (`State.fragments_deferred`).
-/

namespace Downlevel

/-! ## Captured by the operands around -/

namespace Expression

variable {e inner : Expression}

/-- What is deferred is evaluated. -/
theorem Evaluates.deferred {operand : Expression} (h : e.Evaluates inner)
    (hoperand : operand ∈ inner.deferredOperands) : e.Evaluates operand := by
  refine h.tail ?_
  rw [evaluated_eq]
  exact List.mem_append_right _ hoperand

/-- With a dotted name only dotted names are evaluated. -/
theorem Evaluates.dotted (h : e.Evaluates inner) (hname : (DottedName.ofExpression? e).isSome) :
    (DottedName.ofExpression? inner).isSome := by
  induction h using Relation.ReflTransGen.head_induction_on with
  | refl => exact hname
  | @head e part hpart _ ih =>
    cases e with
    | identifier => cases hpart
    | member object dot name =>
      obtain rfl := List.mem_singleton.mp hpart
      rw [DottedName.ofExpression?, Option.isSome_map] at hname
      exact ih hname
    | _ => cases hname

/-- A lowering is written where it is evaluated: no flattened name absorbs it. -/
theorem Evaluates.inside_of_deferred (h : e.Evaluates inner)
    (hdeferred : inner.deferredOperands ≠ []) (scope : Scope) :
    ∃ count, Inside (e.emit scope) (inner.emit scope) count := by
  obtain ⟨count, hencloses⟩ := h.encloses
  obtain ⟨whole, hwhole, hholds⟩ : ∃ whole : Expression,
      (whole = inner ∨ whole.flattened? scope ≠ none ∧ whole.Evaluates inner) ∧
      Site.Holds ⟨scope, none, .expression e⟩ ⟨scope, none, .expression whole⟩ count :=
    hencloses.holds
  rcases hwhole with rfl | ⟨hflat, hwhole⟩
  · exact ⟨count, hholds.inside⟩
  · obtain ⟨piece, hpiece⟩ := Option.ne_none_iff_exists'.mp hflat
    have hname := hwhole.dotted (isSome_ofExpression?_of_flattened? hpiece)
    -- a dotted name defers nothing
    cases inner with
    | conditional | coalesce => cases hname
    | _ => exact absurd rfl hdeferred

end Expression

namespace Capture

variable {e inner : Expression}

/-- What an inner lowering captures is captured by all operands that contain it. -/
theorem has_of_evaluates {resolver : Resolver} {enclosing : Option String}
    {operands : List Expression} (he : e ∈ operands) (hinner : e.Evaluates inner) {v : Token}
    (hv : v ∈ ofOperands resolver enclosing inner.deferredOperands) :
    Has (ofOperands resolver enclosing operands) (key v) := by
  have hhas : Has (ofOperands resolver enclosing inner.deferredOperands) (key v) := ⟨v, hv, rfl⟩
  rw [has_ofOperands] at hhas ⊢
  obtain ⟨operand, hoperand, name, hname, hkey, hglobal⟩ := hhas
  -- the place where the inner lowering reads the variable serves the outer operands, too
  exact ⟨e, he, name, (hinner.deferred hoperand).trans hname, hkey, hglobal⟩

/-! ## Printed in the scope object -/

/-- The lines that bind the captured variables again. -/
def bindings (captured : List Token) : List Piece :=
  captured.flatMap fun name => Piece.newLine ++ [binding name]

theorem binding_mem_bindings {captured : List Token} {name : Token} (h : name ∈ captured) :
    binding name ∈ bindings captured := by
  apply List.mem_flatMap_of_mem h
  simp

end Capture

namespace Piece

theorem mem_separated {separator : String} {lists : List (List Piece)} {piece : Piece}
    (h : piece ∈ separated separator lists) :
    piece = .text separator ∨ ∃ list ∈ lists, piece ∈ list := by
  induction lists with
  | nil => cases h
  | cons first rest ih =>
    cases rest with
    | nil => exact .inr ⟨first, List.mem_cons_self, h⟩
    | cons next rest =>
      rw [separated, List.mem_append, List.mem_cons] at h
      rcases h with h | rfl | h
      · exact .inr ⟨first, List.mem_cons_self, h⟩
      · exact .inl rfl
      · rcases ih h with hseparator | ⟨list, hlist, hpiece⟩
        · exact .inl hseparator
        · exact .inr ⟨list, List.mem_cons_of_mem first hlist, hpiece⟩

end Piece

namespace Capture

/-- The variables in a scope object are the captured ones. -/
theorem written_mem_scopeObject {captured : List Token} {position : Position} {text : String}
    (h : .written position text ∈ scopeObject captured) :
    ∃ v ∈ captured, v.start = position ∧ v.text = text := by
  cases captured with
  | nil => simp [scopeObject] at h
  | cons first rest =>
    have hmembers : Piece.written position text ∈ Piece.separated ", "
        ((first :: rest).map fun name => [.text ("\"" ++ name.text ++ "\": "), name.piece]) := by
      simpa [scopeObject] using h
    rcases Piece.mem_separated hmembers with hcomma | ⟨list, hlist, hpiece⟩
    · cases hcomma
    · obtain ⟨v, hv, rfl⟩ := List.mem_map.mp hlist
      simp [Token.piece] at hpiece
      exact ⟨v, hv, hpiece.1.symm, hpiece.2.symm⟩

end Capture

/-! ## Written inside of each other -/

theorem Woven.balanced {pieces : List Piece} {slots : List Slot} (h : Woven 0 pieces slots 0) :
    Balanced pieces :=
  h.openLiterals_eq fun site _ _ => site.balanced

theorem Inside.separated {separator : String} {lists : List (List Piece)} {pieces : List Piece}
    (hseparator : (Piece.text separator).isFiller = true) (hlists : ∀ list ∈ lists, Balanced list)
    (h : pieces ∈ lists) : Inside (Piece.separated separator lists) pieces 0 := by
  induction lists with
  | nil => cases h
  | cons first rest ih =>
    obtain ⟨hfirst, hrest⟩ := List.forall_mem_cons.mp hlists
    cases rest with
    | nil =>
      obtain rfl := List.mem_singleton.mp h
      exact .refl pieces
    | cons next rest =>
      rw [Piece.separated]
      rcases List.mem_cons.mp h with rfl | h
      · refine ⟨[], 0, .text separator :: Piece.separated separator (next :: rest), ?_, rfl⟩
        rw [Piece.map_shift_zero, List.nil_append]
      · obtain ⟨before, levels, after, heq, hbefore⟩ := ih hrest h
        refine ⟨first ++ .text separator :: before, levels, after, by simp [heq], ?_⟩
        rw [openLiterals_append, hfirst, Option.bind_some,
          openLiterals_cons (Piece.literals_of_isFiller hseparator 0), hbefore]

/-- An operand of a helper stands inside of no literal that its call puts around it. -/
theorem Inside.helperCall {position : Position} {helper : Helper} {operands : List (List Piece)}
    {pieces : List Piece} (hoperands : ∀ operand ∈ operands, Balanced operand)
    (h : pieces ∈ operands) : Inside (Downlevel.helperCall position helper operands) pieces 0 := by
  have hcall : Inside (Downlevel.helperCall position helper operands)
      (Piece.separated ", " operands) 0 := by
    refine ⟨[.helper position helper, .text "("], 0, [.text ")"], ?_, rfl⟩
    rw [Piece.map_shift_zero]
    rfl
  exact hcall.trans (.separated rfl hoperands h)

namespace Expression

variable {scope : Scope} {e : Expression}

/-- A lowering is a call of a helper with the scope object and the function literals among its
operands. -/
theorem inside_of_mem {pieces : List Piece} (hdeferred : e.deferredOperands ≠ [])
    (h : pieces ∈ Capture.scopeObject (scope.captured e.deferredOperands) ::
      e.deferredOperands.map fun operand =>
        Capture.deferred (scope.captured e.deferredOperands) (operand.emit scope)) :
    Inside (e.emit scope) pieces 0 := by
  obtain ⟨position, helper, first, hemit⟩ := @emit_of_deferredOperands scope e hdeferred
  rw [hemit]
  refine .helperCall (List.forall_mem_cons.mpr ⟨?_, List.forall_mem_cons.mpr ⟨?_, ?_⟩⟩)
    (List.mem_cons_of_mem _ h)
  · exact Site.balanced ⟨scope, none, .expression first⟩
  · exact (Capture.woven_scopeObject _).balanced
  · exact List.forall_mem_map.mpr fun operand _ => (Capture.woven_deferred _ scope operand).balanced

end Expression

/-! ## The fragments of a function literal -/

namespace Capture

/-- The fragments that start a line. -/
def lineFragments (options : Options) (levels : Nat) : List Fragment :=
  [.plain options.newLine.text, .plain (Piece.indentation options.indentUnit levels)]

/-- The fragments of a function literal in front of the operand. -/
def openingFragments (options : Options) (levels : Nat) (captured : List Token) : List Fragment :=
  .plain "function(scope)" ::
    captured.flatMap (fun v => lineFragments options (levels + 1) ++
      [.plain (v.text ++ " = scope[\"" ++ v.text ++ "\"]")]) ++
    lineFragments options (levels + 1) ++ [.plain "return "]

/-- The fragments of a function literal behind the operand. -/
def closingFragments (options : Options) (levels : Nat) : List Fragment :=
  lineFragments options levels ++ [.plain "end function"]

theorem renderAll_newLine (options : Options) (source : String) (depth : Nat) :
    Piece.renderAll options source depth Piece.newLine = lineFragments options depth := by
  simp [Piece.renderAll, Piece.newLine, Piece.shift, Piece.render, lineFragments]

theorem renderAll_bindings (options : Options) (source : String) (depth : Nat)
    (captured : List Token) :
    Piece.renderAll options source depth (bindings captured) =
      captured.flatMap fun v => lineFragments options depth ++
        [.plain (v.text ++ " = scope[\"" ++ v.text ++ "\"]")] := by
  rw [Piece.renderAll, bindings, List.flatMap_assoc]
  apply List.flatMap_congr
  intro v _
  rw [← Piece.renderAll, Piece.renderAll_append, renderAll_newLine]
  rfl

/-- The operand stands in its function literal one level deeper, behind the lines that bind the
captured variables. -/
theorem renderAll_deferred (options : Options) (source : String) (depth : Nat)
    (captured : List Token) (operand : List Piece) :
    Piece.renderAll options source depth (deferred captured operand) =
      openingFragments options depth captured ++
        Piece.renderAll options source (depth + 1) operand ++ closingFragments options depth := by
  have hdeferred : deferred captured operand = [.text "function(scope)"] ++
      Piece.nested (bindings captured ++ Piece.newLine ++ [.text "return "] ++ operand) ++
        Piece.newLine ++ [.text "end function"] := by
    simp [deferred, bindings]
  have htext (levels : Nat) (text : String) :
      Piece.renderAll options source levels [.text text] = [.plain text] := rfl
  rw [hdeferred, Piece.nested, openingFragments, closingFragments]
  simp only [Piece.renderAll_append, Piece.renderAll_shift, renderAll_bindings,
    renderAll_newLine, htext]
  simp only [List.append_assoc, List.cons_append, List.nil_append]

end Capture

theorem State.writes_deferred {s : State} {tree : Tree} {scope : Scope} {e operand : Expression}
    {count : Nat} (hsite : (s.site tree).Holds ⟨scope, none, .expression e⟩ count)
    (hoperand : operand ∈ e.deferredOperands) :
    s.Writes tree (Capture.deferred (scope.captured e.deferredOperands) (operand.emit scope))
      count := by
  have hne : e.deferredOperands ≠ [] := List.ne_nil_of_mem hoperand
  have hliteral : Capture.deferred (scope.captured e.deferredOperands) (operand.emit scope) ∈
      e.deferredOperands.map fun operand =>
        Capture.deferred (scope.captured e.deferredOperands) (operand.emit scope) :=
    List.mem_map_of_mem hoperand
  have hinside : Inside (s.pieces tree) _ count :=
    hsite.inside.trans (Expression.inside_of_mem hne (List.mem_cons_of_mem _ hliteral))
  exact writes_of_inside hinside (Capture.woven_deferred _ scope operand).balanced

/-- What is written of an operand that is deferred stands between the fragments that open a function
literal and those that close it, mapped to where it stems from. -/
theorem State.fragments_deferred (s : State) (tree : Tree) {scope : Scope}
    {e operand : Expression} {count : Nat}
    (hsite : (s.site tree).Holds ⟨scope, none, .expression e⟩ count)
    (hoperand : operand ∈ e.deferredOperands) :
    ∃ before levels fragments after, (s.emit tree).1 = before ++
        Capture.openingFragments s.options levels (scope.captured e.deferredOperands) ++
        fragments ++ Capture.closingFragments s.options levels ++ after ∧
      ∀ position text, .written position text ∈ operand.emit scope →
        .mapped position s.source text ∈ fragments := by
  obtain ⟨-, before, levels, after, -, -, hemit⟩ := writes_deferred hsite hoperand
  rw [Capture.renderAll_deferred] at hemit
  refine ⟨s.render before, s.depth + levels, Piece.renderAll s.options s.source
    (s.depth + levels + 1) (operand.emit scope), s.render after, ?_, ?_⟩
  · rw [hemit]
    simp only [List.append_assoc]
  · intro position text hpiece
    exact Piece.mapped_mem_renderAll s.options s.source (s.depth + levels + 1) hpiece

/-- What is captured for a lowering is captured, up to case, for any operands that contain it. So
wherever a lowering lies in a deferred operand of another one, however deep, every variable that its
scope object reads has been bound again in the function literal of that operand. -/
theorem Capture.nested_closed {e inner : Expression} (hinner : e.Evaluates inner)
    (hdeferred : inner.deferredOperands ≠ []) :
    (∀ resolver enclosing operands, e ∈ operands →
      ∀ v ∈ ofOperands resolver enclosing inner.deferredOperands,
        Has (ofOperands resolver enclosing operands) (key v)) ∧
    ∀ (s : State) (tree : Tree) (scope : Scope) (outer : Expression) (depth : Nat),
      (s.site tree).Holds ⟨scope, none, .expression outer⟩ depth → e ∈ outer.deferredOperands →
      let captured := scope.captured outer.deferredOperands
      let object := scopeObject (scope.captured inner.deferredOperands)
      s.Writes tree (.text "function(scope)" ::
        Piece.nested (bindings captured ++ Piece.newLine ++ .text "return " :: e.emit scope) ++
        Piece.newLine ++ [.text "end function"]) depth ∧
      (∃ count, Inside (e.emit scope) (inner.emit scope) count ∧
        s.Writes tree (inner.emit scope) (depth + 1 + count)) ∧
      Inside (inner.emit scope) object 0 ∧
      ∀ position text, .written position text ∈ object → ∃ w ∈ captured,
        Text.foldCase w.text = Text.foldCase text ∧ binding w ∈ bindings captured := by
  refine ⟨fun resolver enclosing operands he v hv => has_of_evaluates he hinner hv, ?_⟩
  intro s tree scope outer depth hsite he captured object
  have houter : Inside (s.pieces tree) (outer.emit scope) depth := hsite.inside
  refine ⟨?_, ?_, ?_, ?_⟩
  · -- the function literal of the outer operand
    exact State.writes_deferred hsite he
  · -- the inner lowering, within that operand
    obtain ⟨count, hinside⟩ := hinner.inside_of_deferred hdeferred scope
    have hholds : Site.Holds ⟨scope, none, .expression outer⟩ ⟨scope, none, .expression e⟩ 1 :=
      Expression.holds_of_deferred he (.self _)
    have hwritten := (houter.trans hholds.inside).trans hinside
    have hbalanced := Site.balanced ⟨scope, none, .expression inner⟩
    exact ⟨count, hinside, State.writes_of_inside hwritten hbalanced⟩
  · exact Expression.inside_of_mem hdeferred List.mem_cons_self
  · intro position text hpiece
    obtain ⟨v, hv, -, rfl⟩ := written_mem_scopeObject hpiece
    obtain ⟨w, hw, hkey⟩ := has_of_evaluates he hinner hv
    exact ⟨w, hw, hkey, binding_mem_bindings hw⟩

/-- In `x ? (y ? f(Z) : z) : x` the inner scope object reads `Z`, which the function literal around
it has bound again. -/
theorem Capture.nested_closed_call :
    let s : State := ⟨{}, .none, "", 0, [], {}⟩
    let name (text : String) : Expression := .identifier { (default : Token) with text }
    let call : Expression := .call (name "f") default [name "Z"] default
    let inner : Expression := .conditional (name "y") default call default (name "z")
    let e : Expression := .group default inner default
    let outer : Expression := .conditional (name "x") default e default (name "x")
    let captured := s.scope.captured outer.deferredOperands
    let object := scopeObject (s.scope.captured inner.deferredOperands)
    (e.Evaluates inner ∧ inner.deferredOperands ≠ []) ∧
      (∃ count, s.Writes (.expression outer) (inner.emit s.scope) (0 + 1 + count)) ∧
      Inside (inner.emit s.scope) object 0 ∧
      .written (default : Token).start "Z" ∈ object ∧
      ∃ w ∈ captured, Text.foldCase w.text = "z" ∧ binding w ∈ bindings captured := by
  intro s name call inner e outer captured object
  have hinner : e.Evaluates inner := .single List.mem_cons_self
  have hdeferred : inner.deferredOperands ≠ [] := by
    show [call, name "z"] ≠ []
    exact List.cons_ne_nil _ _
  have he : e ∈ outer.deferredOperands := List.mem_cons_self
  obtain ⟨-, hemit⟩ := nested_closed hinner hdeferred
  obtain ⟨-, ⟨count, -, hwrites⟩, hobject, hbound⟩ :=
    hemit s (.expression outer) s.scope outer 0 (.self _) he
  have hpiece : .written (default : Token).start "Z" ∈ object := by decide
  obtain ⟨w, hw, hkey, hbinding⟩ := hbound _ _ hpiece
  exact ⟨⟨hinner, hdeferred⟩, ⟨count, hwrites⟩, hobject, hpiece, w, hw, hkey, hbinding⟩

end Downlevel
