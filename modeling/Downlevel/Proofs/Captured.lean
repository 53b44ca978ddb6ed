import Downlevel.Proofs.Deferral

/-!
# Captured variables and printed names

Which variables are captured is found by a walk of its own over the deferred operands, before they
are emitted. It asks the resolver about every name it reaches. Emission asks again, but other
questions: a dotted access is flattened as a whole if it starts with a namespace, and a bare name is
only ever looked for among the functions of the innermost namespace.

The two agree on every name but one kind. The name of a namespace that does not stand before a dot
is printed as it is, although it is not captured, so that a function literal reads a variable there
which it has not bound (`Scope.captured_iff_printed`).
-/

namespace Downlevel

/-! ## The list of captured variables -/

namespace Capture

/-- The list has a variable of the name, in some case. -/
def Has (captured : List Token) (key : String) : Prop := ∃ v ∈ captured, Capture.key v = key

instance (captured : List Token) (key : String) : Decidable (Has captured key) :=
  inferInstanceAs (Decidable (∃ v ∈ captured, Capture.key v = key))

theorem has_add {captured : List Token} {name : Token} {k : String} :
    Has (add captured name) k ↔ key name = k ∨ Has captured k := by
  induction captured with
  | nil => simp [add, Has]
  | cons first rest ih =>
    rw [add]
    split
    · simp [Has]
    · split
      next hkey => simp [Has, hkey]
      next =>
        simp only [Has, List.mem_cons, exists_eq_or_imp] at ih ⊢
        rw [ih, or_left_comm]

theorem has_foldl_add {names captured : List Token} {k : String} :
    Has (names.foldl add captured) k ↔ (∃ name ∈ names, key name = k) ∨ Has captured k := by
  induction names generalizing captured with
  | nil => simp
  | cons name rest ih =>
    rw [List.foldl_cons, ih, has_add, ← or_assoc, or_comm (b := key name = k)]
    simp

end Capture

theorem Expression.mem_names_iff {e : Expression} {name : Token} :
    name ∈ e.names ↔ e.Evaluates (.identifier name) := by
  rw [Expression.names, List.mem_filterMap, ← Expression.mem_reachable_iff]
  constructor
  · rintro ⟨inner, hinner, hname⟩
    cases inner with
    | identifier =>
      cases hname
      exact hinner
    | _ => cases hname
  · intro h
    exact ⟨.identifier name, h, rfl⟩

/-- A variable is captured if it occurs somewhere and is not global there. -/
theorem Capture.has_ofOperands {resolver : Resolver} {enclosing : Option String}
    {operands : List Expression} {k : String} :
    Has (ofOperands resolver enclosing operands) k ↔
      ∃ operand ∈ operands, ∃ name, operand.Evaluates (.identifier name) ∧ key name = k ∧
        isGlobal resolver enclosing name = false := by
  rw [ofOperands, has_foldl_add]
  simp only [Has, List.not_mem_nil, false_and, exists_false, or_false, List.mem_filter,
    List.mem_flatMap, Expression.mem_names_iff, Bool.not_eq_true']
  grind

/-! ## Tables do not mind case -/

theorem Text.foldCase_append (s t : String) :
    Text.foldCase (s ++ t) = Text.foldCase s ++ Text.foldCase t := by
  simp [Text.foldCase]

/-- Only a dot becomes a dot. -/
theorem Text.eq_dot_of_toLower {c : Char} (h : c.toLower = '.') : c = '.' := by
  unfold Char.toLower at h
  split at h
  next hupper =>
    have hval := congrArg (·.val.toNat) h
    simp [UInt32.le_iff_toNat_le] at hupper hval
    omega
  next => exact h

theorem Text.dot_mem_foldCase {s : String} : '.' ∈ (foldCase s).toList ↔ '.' ∈ s.toList := by
  rw [foldCase, String.toList_ofList, List.mem_map]
  constructor
  · rintro ⟨c, hc, hlower⟩
    rwa [eq_dot_of_toLower hlower] at hc
  · exact fun h => ⟨'.', h, rfl⟩

namespace NamespaceTable

variable {table : NamespaceTable} {name other : String}

theorem isNamespace_congr (h : Text.foldCase name = Text.foldCase other) :
    table.isNamespace name = table.isNamespace other := by
  rw [isNamespace, isNamespace, h]

theorem isNamespaceFunction_congr (h : Text.foldCase name = Text.foldCase other)
    (enclosing : Option String) :
    table.isNamespaceFunction name enclosing = table.isNamespaceFunction other enclosing := by
  cases enclosing with
  | none => rw [isNamespaceFunction, isNamespaceFunction, h]
  | some enclosing =>
    rw [isNamespaceFunction, isNamespaceFunction, qualified, qualified, Text.foldCase_append, h,
      ← Text.foldCase_append]

end NamespaceTable

/-! ## Printed names -/

namespace Expression

variable {scope : Scope}

/-- An occurrence of the name in the expression is printed as it is written: no dotted access around
it is flattened, and it is not put behind the name of a namespace. -/
def Prints (scope : Scope) (e : Expression) (name : Token) : Prop :=
  Relation.ReflTransGen (fun e part => e.flattened? scope = none ∧ part ∈ e.evaluated) e
      (.identifier name) ∧
    Expression.emit scope (.identifier name) = [name.piece]

/-- The printed name stands among the pieces of the expression. -/
theorem Prints.inside {e : Expression} {name : Token} (h : e.Prints scope name) :
    ∃ count, Inside (e.emit scope) [name.piece] count := by
  obtain ⟨hpath, hemit⟩ := h
  have hholds : ∃ count, Site.Holds ⟨scope, none, .expression e⟩
      ⟨scope, none, .expression (.identifier name)⟩ count := by
    induction hpath using Relation.ReflTransGen.head_induction_on with
    | refl => exact ⟨0, .self _⟩
    | @head e part hpart _ ih =>
      obtain ⟨count, hholds⟩ := ih
      obtain ⟨hflat, hpart⟩ := hpart
      rw [evaluated_eq] at hpart
      rcases List.mem_append.mp hpart with hdirect | hdeferred
      · exact ⟨count, holds_of_direct hflat hdirect hholds⟩
      · exact ⟨count + 1, holds_of_deferred hdeferred hholds⟩
  obtain ⟨count, hholds⟩ := hholds
  have hinside : Inside (e.emit scope) (Expression.emit scope (.identifier name)) count :=
    hholds.inside
  rw [hemit] at hinside
  exact ⟨count, hinside⟩

/-- A bare name is printed as it is unless it is that of a function of the innermost namespace. -/
theorem emit_identifier_iff {name : Token} :
    Expression.emit scope (.identifier name) = [name.piece] ↔
      scope.isSibling name.text = false := by
  have hpiece : Expression.emit scope (.identifier name) = [name.piece] ↔
      scope.referredName name.text = name.text := by
    simp [Expression.emit, Token.piece]
  rw [hpiece, Scope.referredName]
  cases hsibling : scope.isSibling name.text with
  | false => simp
  | true =>
    simp only [if_true, Bool.true_eq_false, iff_false]
    intro hname
    rw [Scope.declaredName] at hname
    cases henclosing : scope.enclosing with
    | none => simp [Scope.isSibling, Scope.enclosingName, henclosing] at hsibling
    | some parts =>
      -- with a namespace before it the name gets longer
      have hlength := congrArg String.length hname
      simp [Scope.enclosingName, henclosing] at hlength

/-- The only name that is evaluated with a dotted name is its root. -/
theorem root_eq_of_evaluates {e : Expression} {chain : DottedName} {name : Token}
    (hchain : DottedName.ofExpression? e = some chain) (h : e.Evaluates (.identifier name)) :
    chain.root = name := by
  induction h using Relation.ReflTransGen.head_induction_on generalizing chain with
  | refl =>
    cases hchain
    rfl
  | @head e part hpart _ ih =>
    cases e with
    | identifier => cases hpart
    | member object dot last =>
      obtain rfl := List.mem_singleton.mp hpart
      obtain ⟨shorter, hshorter, rfl⟩ := Option.map_eq_some_iff.mp hchain
      have hroot := ih hshorter
      exact hroot
    | _ => cases hchain

/-- What is flattened starts with a namespace. -/
theorem startsWithNamespace_of_flattened? {e : Expression} {piece : Piece}
    (h : e.flattened? scope = some piece) : ∃ chain, DottedName.ofExpression? e = some chain ∧
      scope.resolver.startsWithNamespace chain.parts = true := by
  cases e with
  | member object dot name =>
    rw [flattened?] at h
    split at h
    · cases h
    next chain hchain =>
      split at h
      next hstarts => exact ⟨chain, hchain, hstarts⟩
      · cases h
  | _ => cases h

/-- A name that is not that of a namespace is never absorbed. -/
theorem path_of_evaluates {e : Expression} {name : Token} (h : e.Evaluates (.identifier name))
    (hname : ∀ rest, scope.resolver.startsWithNamespace (name.text :: rest) = false) :
    Relation.ReflTransGen (fun e part => e.flattened? scope = none ∧ part ∈ e.evaluated) e
      (.identifier name) := by
  induction h using Relation.ReflTransGen.head_induction_on with
  | refl => exact .refl
  | @head e part hpart hrest ih =>
    refine .head ⟨?_, hpart⟩ ih
    -- what is flattened has a namespace at its root, and the name would be that root
    cases hflat : e.flattened? scope with
    | none => rfl
    | some piece =>
      obtain ⟨chain, hchain, hstarts⟩ := startsWithNamespace_of_flattened? hflat
      obtain rfl := root_eq_of_evaluates hchain (.head hpart hrest)
      rw [DottedName.parts, DottedName.tokens, List.map_cons, hname] at hstarts
      cases hstarts

/-- An occurrence that is not printed as it is stands behind the name of the innermost namespace, or
else a dotted access absorbs it. -/
theorem Evaluates.prints_or {e : Expression} {name : Token}
    (h : e.Evaluates (.identifier name)) :
    e.Prints scope name ∨ scope.isSibling name.text = true ∨
      ∃ whole, e.Evaluates whole ∧ whole.flattened? scope ≠ none ∧
        whole.Evaluates (.identifier name) := by
  induction h using Relation.ReflTransGen.head_induction_on with
  | refl =>
    cases hsibling : scope.isSibling name.text with
    | false => exact .inl ⟨.refl, emit_identifier_iff.mpr hsibling⟩
    | true => exact .inr (.inl rfl)
  | @head e part hpart hrest ih =>
    by_cases hflat : e.flattened? scope = none
    · rcases ih with ⟨hpath, hemit⟩ | hsibling | ⟨whole, hwhole, hname⟩
      · exact .inl ⟨.head ⟨hflat, hpart⟩ hpath, hemit⟩
      · exact .inr (.inl hsibling)
      · exact .inr (.inr ⟨whole, .head hpart hwhole, hname⟩)
    · exact .inr (.inr ⟨e, .refl, hflat, .head hpart hrest⟩)

theorem Prints.evaluates {e : Expression} {name : Token} (h : e.Prints scope name) :
    e.Evaluates (.identifier name) :=
  Relation.ReflTransGen.mono (fun _ _ hpart => hpart.2) _ _ h.1

end Expression

/-! ## Tables that have been filled -/

/-- What can be registered with a table. -/
inductive Registration where
  | namespaceName (name : String)
  | function (enclosing name : String)

namespace NamespaceTable

def register (table : NamespaceTable) : Registration → NamespaceTable
  | .namespaceName name => table.addNamespace name
  | .function enclosing name => table.addFunction enclosing name

/-- The table after registrations, from the first one on. -/
def ofRegistrations (registrations : List Registration) : NamespaceTable :=
  registrations.foldl register {}

/-- The names of all functions have a dot in them. -/
def Qualified (table : NamespaceTable) : Prop := ∀ f ∈ table.functions, '.' ∈ f.toList

@[simp] theorem functions_addNamespace (table : NamespaceTable) (name : String) :
    (table.addNamespace name).functions = table.functions := by
  simp [addNamespace]

@[simp] theorem functions_addFunction (table : NamespaceTable) (enclosing name : String) :
    (table.addFunction enclosing name).functions =
      table.functions.insert (qualified enclosing name) := by
  simp [addFunction]

theorem qualified_register {table : NamespaceTable} (h : table.Qualified)
    (registration : Registration) : (table.register registration).Qualified := by
  intro f hf
  cases registration with
  | namespaceName name =>
    rw [register, functions_addNamespace] at hf
    exact h f hf
  | function enclosing name =>
    rw [register, functions_addFunction] at hf
    obtain rfl | hf := List.mem_insert_iff.mp hf
    · simp [qualified, Text.foldCase]
    · exact h f hf

theorem qualified_ofRegistrations (registrations : List Registration) :
    (ofRegistrations registrations).Qualified :=
  List.foldlRecOn registrations register (by simp [Qualified])
    fun _ h registration _ => qualified_register h registration

theorem not_isNamespaceFunction_of_dotless {table : NamespaceTable} (h : table.Qualified)
    {name : String} (hname : '.' ∉ name.toList) :
    table.isNamespaceFunction name none = false := by
  by_contra hcontains
  rw [Bool.not_eq_false, isNamespaceFunction, List.contains_iff_mem] at hcontains
  exact hname (Text.dot_mem_foldCase.mp (h _ hcontains))

/-- The name is taken for a global one whatever stands around it: it is that of a namespace, or
outside of all namespaces that of a function together with its namespace. -/
def TakesForGlobal (table : NamespaceTable) (enclosing : Option (List String)) (name : String) :
    Prop :=
  table.isNamespace name = true ∨ enclosing = none ∧ table.isNamespaceFunction name none = true

end NamespaceTable

/-! ## Captured and printed names -/

namespace Expression

/-- The name is printed as it is somewhere in the deferred operands, in some case. -/
def PrintsDeferred (scope : Scope) (e : Expression) (name : String) : Prop :=
  ∃ operand ∈ e.deferredOperands, ∃ v, Capture.key v = Text.foldCase name ∧
    operand.Prints scope v

end Expression

section Captured

variable {table : NamespaceTable} {enclosing : Option (List String)}

/-- What capture asks of a table, in terms of what emission asks. -/
theorem isGlobal_eq_false_iff {name : Token} :
    Capture.isGlobal table.resolver (Scope.enclosingName ⟨table.resolver, enclosing⟩ .dotted)
        name = false ↔
      Scope.isSibling ⟨table.resolver, enclosing⟩ name.text = false ∧
        ¬ table.TakesForGlobal enclosing name.text := by
  have hglobal : Capture.isGlobal table.resolver
      (Scope.enclosingName ⟨table.resolver, enclosing⟩ .dotted) name =
      (table.isNamespace name.text || table.isNamespaceFunction name.text
        (enclosing.map (NameStyle.spell .dotted))) := rfl
  rw [hglobal]
  cases enclosing with
  | none => simp [NamespaceTable.TakesForGlobal, Scope.isSibling, Scope.enclosingName]
  | some parts =>
    have hsibling : Scope.isSibling ⟨table.resolver, some parts⟩ name.text =
      table.isNamespaceFunction name.text (some (NameStyle.spell .dotted parts)) := rfl
    simp [hsibling, NamespaceTable.TakesForGlobal, and_comm]

theorem takesForGlobal_congr {name other : String}
    (h : Text.foldCase name = Text.foldCase other) :
    table.TakesForGlobal enclosing name ↔ table.TakesForGlobal enclosing other := by
  rw [NamespaceTable.TakesForGlobal, NamespaceTable.TakesForGlobal,
    NamespaceTable.isNamespace_congr h, NamespaceTable.isNamespaceFunction_congr h]

/-- A variable is captured if it is printed as it is and not taken for a global name. -/
theorem has_captured_iff {e : Expression} {name : String} :
    Capture.Has (Scope.captured ⟨table.resolver, enclosing⟩ e.deferredOperands)
        (Text.foldCase name) ↔
      e.PrintsDeferred ⟨table.resolver, enclosing⟩ name ∧
        ¬ table.TakesForGlobal enclosing name := by
  rw [Scope.captured, Capture.has_ofOperands]
  constructor
  · rintro ⟨operand, hoperand, v, hv, hkey, hglobal⟩
    obtain ⟨hsibling, hname⟩ := isGlobal_eq_false_iff.mp hglobal
    have hnamespace : table.isNamespace v.text = false := by
      simpa using (not_or.mp hname).1
    have hprints : operand.Prints ⟨table.resolver, enclosing⟩ v :=
      ⟨Expression.path_of_evaluates hv fun _ => hnamespace,
        Expression.emit_identifier_iff.mpr hsibling⟩
    rw [takesForGlobal_congr hkey] at hname
    exact ⟨⟨operand, hoperand, v, hkey, hprints⟩, hname⟩
  · rintro ⟨⟨operand, hoperand, v, hkey, hprints⟩, hname⟩
    rw [← takesForGlobal_congr hkey] at hname
    have hsibling := Expression.emit_identifier_iff.mp hprints.2
    exact ⟨operand, hoperand, v, hprints.evaluates, hkey,
      isGlobal_eq_false_iff.mpr ⟨hsibling, hname⟩⟩

end Captured

/-- All deferred operands of an expression share one list of captured variables. -/
theorem Expression.emit_of_deferredOperands {scope : Scope} {e : Expression}
    (h : e.deferredOperands ≠ []) :
    let captured := scope.captured e.deferredOperands
    ∃ position helper, ∃ first : Expression, e.emit scope = helperCall position helper
      (first.emit scope :: Capture.scopeObject captured ::
        e.deferredOperands.map fun operand => Capture.deferred captured (operand.emit scope)) := by
  cases e with
  | conditional test question consequent colon alternate =>
    rw [Expression.emit_conditional, deferredOperands]
    rw [deferredOperands] at h
    split at h
    next hmutate =>
      rw [if_pos hmutate, if_pos hmutate]
      exact ⟨question.start, .scopeSafeTernary, test, rfl⟩
    next => exact absurd rfl h
  | coalesce left operator right =>
    rw [Expression.emit_coalesce, deferredOperands]
    rw [deferredOperands] at h
    split at h
    next hmutate =>
      rw [if_pos hmutate, if_pos hmutate]
      exact ⟨operator.start, .scopeSafeCoalesce, left, rfl⟩
    next => exact absurd rfl h
  | _ => exact absurd rfl h

/-- Whatever has been registered, wherever the expression stands: what is captured is printed, but
the name of a namespace that is printed as it is is not captured, and this is the only case in which
the two differ. (A name with a dot in it could also be that of a function, but no identifier is
such a name.) -/
theorem Scope.captured_iff_printed (registrations : List Registration)
    (enclosing : Option (List String)) (e : Expression) :
    let table := NamespaceTable.ofRegistrations registrations
    let scope : Scope := ⟨table.resolver, enclosing⟩
    let captured := scope.captured e.deferredOperands
    (e.deferredOperands ≠ [] → ∃ position helper, ∃ first : Expression, e.emit scope =
      helperCall position helper (first.emit scope :: Capture.scopeObject captured ::
        e.deferredOperands.map fun operand =>
          Capture.deferred captured (operand.emit scope))) ∧
    (∀ operand ∈ e.deferredOperands, ∀ v, operand.Evaluates (.identifier v) →
      (operand.Prints scope v ∧ ∃ count, Inside (operand.emit scope) [v.piece] count) ∨
      scope.isSibling v.text = true ∨
      ∃ whole, operand.Evaluates whole ∧ whole.flattened? scope ≠ none ∧
        whole.Evaluates (.identifier v)) ∧
    ∀ name : String,
      (Capture.Has captured (Text.foldCase name) → e.PrintsDeferred scope name) ∧
      ((Capture.Has captured (Text.foldCase name) ↔ e.PrintsDeferred scope name) ↔
        ¬ (e.PrintsDeferred scope name ∧ table.TakesForGlobal enclosing name)) ∧
      ('.' ∉ name.toList →
        (table.TakesForGlobal enclosing name ↔ table.isNamespace name = true)) := by
  refine ⟨Expression.emit_of_deferredOperands, fun operand _ v hv => ?_, fun name => ⟨?_, ?_, ?_⟩⟩
  · exact hv.prints_or.imp_left fun hprints => ⟨hprints, hprints.inside⟩
  · exact fun hcaptured => (has_captured_iff.mp hcaptured).1
  · rw [has_captured_iff]
    tauto
  · intro hname
    have hfunction := NamespaceTable.not_isNamespaceFunction_of_dotless
      (NamespaceTable.qualified_ofRegistrations registrations) hname
    simp [NamespaceTable.TakesForGlobal, hfunction]

/-- In `c ? f(Utils) : x` with a namespace `Utils`, the name `Utils` is printed as it is and not
captured. -/
theorem Scope.captured_ne_printed :
    let scope : Scope := ⟨(NamespaceTable.ofRegistrations [.namespaceName "Utils"]).resolver, none⟩
    let name (text : String) : Expression := .identifier { (default : Token) with text }
    let e : Expression := .conditional (name "c") default
      (.call (name "f") default [name "Utils"] default) default (name "x")
    ¬ (Capture.Has (scope.captured e.deferredOperands) (Text.foldCase "Utils") ↔
      e.PrintsDeferred scope "Utils") := by
  intro scope name e h
  have hprints : e.PrintsDeferred scope "Utils" := by
    refine ⟨.call (name "f") default [name "Utils"] default, List.mem_cons_self,
      { (default : Token) with text := "Utils" }, rfl, .single ⟨rfl, ?_⟩, rfl⟩
    exact List.mem_cons_of_mem _ List.mem_cons_self
  have hnamespace : (NamespaceTable.ofRegistrations [.namespaceName "Utils"]).isNamespace "Utils" =
      true := by decide
  exact (has_captured_iff.mp (h.mpr hprints)).2 (.inl hnamespace)

end Downlevel
