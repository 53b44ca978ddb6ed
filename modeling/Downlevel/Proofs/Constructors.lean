import Downlevel.Proofs.Chains
import Downlevel.Tree.Construction

/-!
# Constructor calls

`new Name(arguments)` is written as a call of the flattened name of the class, and so is a plain
call of the same dotted name. But the two come to the name in different ways. The class of a
constructor call is flattened without a question, whereas the name that a plain call calls is an
expression: a chain is flattened if it starts with a namespace, and a bare name is looked for among
the functions of the innermost namespace. A bare class name is not looked for there. So if the
innermost namespace has a function of that name, the constructor call is one of another function.

Main statement: this is the only case in which the two calls differ in their text
(`State.emit_construct`).
-/

namespace Downlevel

namespace Expression

/-- What is written for the brackets of a call and the arguments between them. -/
def brackets (scope : Scope) (opening : Token) (arguments : List Expression) (closing : Token) :
    List Piece :=
  opening.piece :: Piece.separated ", " (emitArguments scope arguments) ++ [closing.piece]

theorem emit_call (scope : Scope) (callee : Expression) (opening : Token)
    (arguments : List Expression) (closing : Token) :
    emit scope (.call callee opening arguments closing) =
      callee.emit scope ++ brackets scope opening arguments closing := by
  rw [emit, brackets]
  simp

theorem emit_new (scope : Scope) (keyword : Token) (className : DottedName) (opening : Token)
    (arguments : List Expression) (closing : Token) :
    emit scope (.construct keyword className opening arguments closing) =
      .written className.start (className.text .flattened) ::
        brackets scope opening arguments closing := by
  rw [emit, brackets]
  rfl

end Expression

namespace State

/-- The dotted name is a bare one, and the innermost namespace has a function of that name. -/
def NamesSibling (s : State) (n enclosing : DottedName) : Prop :=
  n.links = [] ∧ s.enclosingNamespace? = some enclosing ∧
    s.resolver.isNamespaceFunction n.root.text (some (enclosing.text .dotted)) = true

/-- The global name that a dotted name stands for when it is called, if it is a chain that starts
with a namespace or a bare name. -/
def calledName (s : State) (n : DottedName) : String :=
  if n.links = [] then s.scope.referredName n.root.text else n.text .flattened

variable {s : State} {n enclosing : DottedName}

theorem isSibling_iff (hlinks : n.links = []) :
    s.scope.isSibling n.root.text = true ↔ ∃ enclosing, s.NamesSibling n enclosing := by
  rw [Scope.isSibling, scope, Scope.enclosingName]
  cases henclosing : s.enclosingNamespace? with
  | none => simp [NamesSibling, henclosing]
  | some enclosing =>
    simp only [NamesSibling, hlinks, henclosing, true_and, Option.some.injEq, Option.map_some,
      exists_eq_left']
    rfl

theorem calledName_of_namesSibling (h : s.NamesSibling n enclosing) :
    s.calledName n = enclosing.text .flattened ++ "_" ++ n.text .flattened := by
  obtain ⟨root, links⟩ := n
  have hsibling := (isSibling_iff h.1).mpr ⟨enclosing, h⟩
  obtain ⟨rfl, henclosing, -⟩ := h
  rw [calledName, if_pos rfl, Scope.referredName, if_pos hsibling, Scope.declaredName, scope,
    Scope.enclosingName, henclosing]
  rfl

theorem calledName_of_not_namesSibling (h : ¬ ∃ enclosing, s.NamesSibling n enclosing) :
    s.calledName n = n.text .flattened := by
  obtain ⟨root, links⟩ := n
  rw [calledName]
  split
  next hlinks =>
    obtain rfl : links = [] := hlinks
    rw [Scope.referredName, if_neg (mt (isSibling_iff rfl).mp h)]
    rfl
  next => rfl

/-- Only a sibling is called by a name that is not the flattened one. -/
theorem calledName_eq_iff :
    s.calledName n = n.text .flattened ↔ ¬ ∃ enclosing, s.NamesSibling n enclosing := by
  constructor
  · rintro hname ⟨enclosing, hsibling⟩
    rw [calledName_of_namesSibling hsibling] at hname
    -- with a namespace before it the name gets longer
    have hlength := congrArg String.length hname
    simp at hlength
  · exact calledName_of_not_namesSibling

variable {registrations : List Registration}

theorem emit_called
    (hresolver : s.resolver = (NamespaceTable.ofRegistrations registrations).resolver)
    (hname : n.links = [] ∨ Registration.IsRegistered registrations n.root.text) :
    n.toExpression.emit s.scope = [.written n.root.start (s.calledName n)] := by
  obtain ⟨root, links⟩ := n
  rw [calledName, DottedName.toExpression_eq]
  split
  next hlinks =>
    obtain rfl : links = [] := hlinks
    rw [Expression.access, List.foldl_nil, Expression.emit]
  next hlinks =>
    have hregistered := hname.resolve_left hlinks
    exact Expression.emit_access_of_isRegistered s.scope hresolver hregistered hlinks

/-- A constructor call and a call of the same dotted name, where the name is a bare one or starts
with a registered namespace: both can be built, both write the same behind the name, and both leave
the same state. They have the same text unless the name is a bare one and the innermost namespace
has a function of that name. Then the call is one of this function, by its global name, but the
constructor call still writes the bare name. -/
theorem emit_construct (s : State) {registrations : List Registration}
    (hresolver : s.resolver = (NamespaceTable.ofRegistrations registrations).resolver)
    (keyword : Token) {className : DottedName}
    (hname : className.links = [] ∨ Registration.IsRegistered registrations className.root.text)
    (opening : Token) {arguments : List Expression} (harguments : arguments.length ≤ maxArguments)
    (closing : Token) :
    ∃ new call brackets after,
      Expression.ofConstruct keyword className.toExpression opening arguments closing = .ok new ∧
      Expression.ofCall className.toExpression opening arguments closing = .ok call ∧
      s.emit (.expression new) =
        (.mapped className.start s.source (className.text .flattened) :: brackets, after) ∧
      s.emit (.expression call) =
        (.mapped className.root.start s.source (s.calledName className) :: brackets, after) ∧
      (∀ enclosing, s.NamesSibling className enclosing → s.calledName className =
        enclosing.text .flattened ++ "_" ++ className.text .flattened) ∧
      (Fragment.code (s.emit (.expression new)).1 = Fragment.code (s.emit (.expression call)).1 ↔
        ¬ ∃ enclosing, s.NamesSibling className enclosing) := by
  have hnew : Expression.ofConstruct keyword className.toExpression opening arguments closing =
      .ok (.construct keyword className opening arguments closing) := by
    rw [Expression.ofConstruct, DottedName.ofExpression, DottedName.ofExpression?_toExpression]
    exact if_pos harguments
  have hcall : Expression.ofCall className.toExpression opening arguments closing =
      .ok (.call className.toExpression opening arguments closing) := if_pos harguments
  have hemitNew := Expression.emit_new s.scope keyword className opening arguments
    closing
  have hemitCall := Expression.emit_call s.scope className.toExpression opening arguments
    closing
  rw [emit_called hresolver hname] at hemitCall
  let brackets := Expression.brackets s.scope opening arguments closing
  have hwritten {e : Expression} {position : Position} {name : String}
      (h : e.emit s.scope = .written position name :: brackets) :
      s.emit (.expression e) =
        (.mapped position s.source name :: s.render brackets, s.record brackets) := by
    rw [emit_expression, h]
    rfl
  refine ⟨_, _, s.render brackets, s.record brackets, hnew, hcall, hwritten hemitNew,
    hwritten hemitCall, fun _ => calledName_of_namesSibling, ?_⟩
  rw [hwritten hemitNew, hwritten hemitCall, Fragment.code_cons, Fragment.code_cons,
    String.append_left_inj, ← calledName_eq_iff]
  exact eq_comm

/-- In the namespace N, which has a function Klass, `new N.Klass()` is written like `N.Klass()`. -/
theorem emit_construct_qualified :
    let registrations : List Registration := [.function "N" "Klass"]
    let token (text : String) : Token := { (default : Token) with text }
    let className : DottedName := ⟨token "N", [⟨token ".", token "Klass"⟩]⟩
    let s : State := ⟨{}, (NamespaceTable.ofRegistrations registrations).resolver, "", 0,
      [.namespaceBlock default ⟨token "N", []⟩], {}⟩
    (className.links = [] ∨ Registration.IsRegistered registrations className.root.text) ∧
      ([] : List Expression).length ≤ maxArguments ∧
      ∃ new call,
        Expression.ofConstruct default className.toExpression default [] default = .ok new ∧
        Expression.ofCall className.toExpression default [] default = .ok call ∧
        Fragment.code (s.emit (.expression new)).1 =
          Fragment.code (s.emit (.expression call)).1 := by
  intro registrations token className s
  have hname : className.links = [] ∨
      Registration.IsRegistered registrations className.root.text :=
    .inr ⟨_, List.mem_cons_self, "N", by decide, by decide⟩
  have harguments : ([] : List Expression).length ≤ maxArguments := Nat.zero_le _
  obtain ⟨new, call, _, _, hnew, hcall, -, -, -, hiff⟩ :=
    emit_construct s rfl default hname default harguments default
  refine ⟨hname, harguments, new, call, hnew, hcall, hiff.mpr ?_⟩
  rintro ⟨_, hlinks, -⟩
  cases hlinks

/-- There `new Klass()` is not written like `Klass()`, which is a call of the function. -/
theorem not_emit_construct_sibling :
    let registrations : List Registration := [.function "N" "Klass"]
    let token (text : String) : Token := { (default : Token) with text }
    let className : Expression := .identifier (token "Klass")
    let s : State := ⟨{}, (NamespaceTable.ofRegistrations registrations).resolver, "", 0,
      [.namespaceBlock default ⟨token "N", []⟩], {}⟩
    s.resolver.isNamespaceFunction "Klass" (some "N") = true ∧
      ∃ new call,
        Expression.ofConstruct (token "new") className (token "(") [] (token ")") = .ok new ∧
        Expression.ofCall className (token "(") [] (token ")") = .ok call ∧
        Fragment.code (s.emit (.expression new)).1 = "Klass()" ∧
        Fragment.code (s.emit (.expression call)).1 = "N_Klass()" := by
  intro registrations token className s
  exact ⟨by decide, _, _, rfl, rfl, by decide, by decide⟩

end State

end Downlevel
