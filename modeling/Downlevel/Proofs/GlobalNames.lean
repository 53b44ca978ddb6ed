import Downlevel.Proofs.Captured

/-!
# Declarations and references agree

A function `f` of a namespace `A.B` is global in the emitted text, by the name `A_B_f`. The name is
put together in three places: where the function is declared, where a bare `f` inside of the
namespace refers to it, and where a dotted `A.B.f` does. The first two find the namespace by the
namespace statements around them, the last one by asking for its root.

Main statement: all of them write the same identifier, up to case (`State.emit_global_name`). It is
one fragment, mapped to the place of the name (`State.mapped_mem_emit_of_names`).
-/

namespace Downlevel

/-! ## Spelling -/

namespace Text

theorem foldCase_join (separator : String) (parts : List String) :
    foldCase (join separator parts) = join (foldCase separator) (parts.map foldCase) := by
  induction parts with
  | nil => rfl
  | cons part rest ih =>
    cases rest with
    | nil => rfl
    | cons next rest =>
      rw [join, foldCase_append, foldCase_append, ih]
      rfl

theorem join_concat {parts : List String} (h : parts ≠ []) (separator last : String) :
    join separator (parts ++ [last]) = join separator parts ++ separator ++ last := by
  induction parts with
  | nil => exact absurd rfl h
  | cons part rest ih =>
    cases rest with
    | nil => rfl
    | cons next rest =>
      have hrest : join separator (next :: rest ++ [last]) =
        join separator (next :: rest) ++ separator ++ last := ih (List.cons_ne_nil next rest)
      have hall : join separator (part :: next :: rest ++ [last]) =
        part ++ separator ++ join separator (next :: rest ++ [last]) := rfl
      rw [hall, hrest, join]
      simp only [String.append_assoc]

/-- What stands before the first separator is the first part. -/
theorem exists_splitAt_append {separator : Char} {part : List Char} (h : separator ∉ part)
    (rest : List Char) :
    ∃ parts, splitAt separator (part ++ separator :: rest) = part :: parts := by
  have hsplit := splitAt_append h (splitAt_separator separator rest)
  rw [List.append_nil] at hsplit
  exact ⟨_, hsplit⟩

end Text

theorem NameStyle.foldCase_spell_congr (style : NameStyle) {parts others : List String}
    (h : parts.map Text.foldCase = others.map Text.foldCase) :
    Text.foldCase (style.spell parts) = Text.foldCase (style.spell others) := by
  rw [spell, spell, Text.foldCase_join, Text.foldCase_join, h]

theorem NameStyle.spell_concat (style : NameStyle) {parts : List String} (h : parts ≠ [])
    (last : String) :
    style.spell (parts ++ [last]) = style.spell parts ++ style.separator ++ last :=
  Text.join_concat h style.separator last

/-! ## What a table knows -/

namespace NamespaceTable

theorem mem_foldl_insert {paths known : List String} {path : String} :
    path ∈ paths.foldl (fun known path => known.insert path) known ↔
      path ∈ paths ∨ path ∈ known := by
  induction paths generalizing known with
  | nil => simp
  | cons first rest ih =>
    rw [List.foldl_cons, ih, List.mem_insert_iff, List.mem_cons]
    tauto

theorem mem_addNamespace_iff {table : NamespaceTable} {name path : String} :
    path ∈ (table.addNamespace name).namespaces ↔
      path ∈ closure name ∨ path ∈ table.namespaces := by
  rw [addNamespace, mem_foldl_insert]

theorem mem_addFunction_iff {table : NamespaceTable} {enclosing name path : String} :
    path ∈ (table.addFunction enclosing name).namespaces ↔
      path ∈ closure enclosing ∨ path ∈ table.namespaces := by
  simp only [addFunction, mem_addNamespace_iff]

/-- A dotted name lies in the namespace that is its root. -/
theorem root_mem_closure {root : String} (h : '.' ∉ root.toList) (rest : List String) :
    Text.foldCase root ∈ closure (NameStyle.dotted.spell (root :: rest)) := by
  have hroot : '.' ∉ (Text.foldCase root).toList := by rwa [Text.dot_mem_foldCase]
  have hfold : Text.foldCase (NameStyle.dotted.spell (root :: rest)) =
      Text.join "." (Text.foldCase root :: rest.map Text.foldCase) := Text.foldCase_join _ _
  -- what is registered first is the part before the first dot
  obtain ⟨parts, hparts⟩ : ∃ parts, Text.splitAt '.'
      (Text.join "." (Text.foldCase root :: rest.map Text.foldCase)).toList =
        (Text.foldCase root).toList :: parts := by
    cases rest with
    | nil =>
      have hsplit := Text.splitAt_append hroot (rfl : Text.splitAt '.' [] = [[]])
      rw [List.append_nil] at hsplit
      exact ⟨[], hsplit⟩
    | cons next rest =>
      have hjoin : (Text.join "." (Text.foldCase root :: (next :: rest).map Text.foldCase)).toList =
          (Text.foldCase root).toList ++
            '.' :: (Text.join "." ((next :: rest).map Text.foldCase)).toList := by
        rw [List.map_cons, Text.join, String.toList_append, String.toList_append,
          List.append_assoc]
        rfl
      rw [hjoin]
      exact Text.exists_splitAt_append hroot _
  rw [closure, hfold, hparts, paths]
  simp

theorem startsWithNamespace_congr {table : NamespaceTable} {parts others : List String}
    (h : parts.map Text.foldCase = others.map Text.foldCase) :
    table.startsWithNamespace parts = table.startsWithNamespace others := by
  cases parts with
  | nil =>
    cases others with
    | nil => rfl
    | cons => cases h
  | cons root rest =>
    cases others with
    | nil => cases h
    | cons other more => exact isNamespace_congr (List.cons.inj h).1

/-- The table knows a function and the root of the namespace that the function is in, whose name has
the given parts. -/
structure Knows (table : NamespaceTable) (parts : List String) (name : String) : Prop where
  root : ∀ rest, table.startsWithNamespace (parts ++ rest) = true
  function : table.isNamespaceFunction name (some (NameStyle.dotted.spell parts)) = true

variable {table : NamespaceTable} {parts : List String} {name : String}

theorem isNamespace_register (h : table.isNamespace name = true) (registration : Registration) :
    (table.register registration).isNamespace name = true := by
  rw [isNamespace, List.contains_iff_mem] at h ⊢
  cases registration with
  | namespaceName other =>
    rw [register, mem_addNamespace_iff]
    exact .inr h
  | function enclosing other =>
    rw [register, mem_addFunction_iff]
    exact .inr h

theorem isNamespaceFunction_register {enclosing : Option String}
    (h : table.isNamespaceFunction name enclosing = true) (registration : Registration) :
    (table.register registration).isNamespaceFunction name enclosing = true := by
  have hsubset : table.functions ⊆ (table.register registration).functions := by
    intro f hf
    cases registration with
    | namespaceName other => simpa [register] using hf
    | function enclosing other =>
      rw [register, functions_addFunction]
      exact List.mem_insert_of_mem hf
  cases enclosing <;> rw [isNamespaceFunction, List.contains_iff_mem] at h ⊢ <;> exact hsubset h

/-- Nothing that is registered is forgotten. -/
theorem Knows.register (h : table.Knows parts name) (registration : Registration) :
    (table.register registration).Knows parts name := by
  refine ⟨fun rest => ?_, isNamespaceFunction_register h.function registration⟩
  have hroot := h.root rest
  cases hparts : parts ++ rest with
  | nil =>
    rw [hparts] at hroot
    cases hroot
  | cons root more =>
    rw [hparts] at hroot
    exact isNamespace_register hroot registration

theorem knows_register_function (table : NamespaceTable) (hparts : parts ≠ [])
    (hdots : ∀ part ∈ parts, '.' ∉ part.toList) (name : String) :
    (table.register (.function (NameStyle.dotted.spell parts) name)).Knows parts name := by
  constructor
  · intro rest
    cases parts with
    | nil => exact absurd rfl hparts
    | cons root more =>
      have hroot := root_mem_closure (hdots root List.mem_cons_self) more
      rw [List.cons_append, startsWithNamespace, isNamespace, List.contains_iff_mem, register,
        mem_addFunction_iff]
      exact .inl hroot
  · rw [isNamespaceFunction, register, functions_addFunction, List.contains_iff_mem]
    exact List.mem_insert_self

theorem knows_ofRegistrations {registrations : List Registration}
    (h : .function (NameStyle.dotted.spell parts) name ∈ registrations) (hparts : parts ≠ [])
    (hdots : ∀ part ∈ parts, '.' ∉ part.toList) :
    (ofRegistrations registrations).Knows parts name := by
  obtain ⟨before, after, rfl⟩ := List.append_of_mem h
  rw [ofRegistrations, List.foldl_append, List.foldl_cons]
  exact List.foldlRecOn (motive := fun table => table.Knows parts name) after register
    (knows_register_function _ hparts hdots name) fun _ hknows next _ => hknows.register next

theorem Knows.congr {others : List String} {other : String} (h : table.Knows parts name)
    (heq : others.map Text.foldCase = parts.map Text.foldCase)
    (hname : Text.foldCase other = Text.foldCase name) : table.Knows others other := by
  constructor
  · intro rest
    have hall : (others ++ rest).map Text.foldCase = (parts ++ rest).map Text.foldCase := by
      simp [heq]
    exact (startsWithNamespace_congr hall).trans (h.root rest)
  · have hspell := NameStyle.dotted.foldCase_spell_congr heq
    have hfunction := h.function
    rw [isNamespaceFunction, qualified, Text.foldCase_append, Text.foldCase_append] at hfunction ⊢
    rwa [hspell, hname]

end NamespaceTable

/-! ## Where a site stands -/

namespace Slot

/-- The part of the entry, if it has one, is emitted in the scope. -/
def In (scope : Scope) : Slot → Prop
  | own _ => True
  | part site _ => site.scope = scope

def AllIn (scope : Scope) (slots : List Slot) : Prop := ∀ slot ∈ slots, slot.In scope

variable {scope : Scope} {slots more : List Slot}

@[simp] theorem in_own (piece : Piece) : (own piece).In scope := trivial

@[simp] theorem in_token (t : Token) : (token t).In scope := trivial

@[simp] theorem in_operand (e : Expression) : (operand scope e).In scope := rfl

@[simp] theorem in_deferred (e : Expression) : (deferred scope e).In scope := rfl

@[simp] theorem in_statement (s : Statement) : (statement scope s).In scope := rfl

@[simp] theorem in_block (ownerLine : Nat) (b : Block) : (block scope ownerLine b).In scope := rfl

@[simp] theorem allIn_nil : AllIn scope [] := by
  simp [AllIn]

@[simp] theorem allIn_cons (slot : Slot) :
    AllIn scope (slot :: more) ↔ slot.In scope ∧ AllIn scope more :=
  List.forall_mem_cons

@[simp] theorem allIn_append : AllIn scope (slots ++ more) ↔ AllIn scope slots ∧ AllIn scope more :=
  List.forall_mem_append

@[simp] theorem allIn_map {α : Type} {f : α → Slot} {list : List α} :
    AllIn scope (list.map f) ↔ ∀ a ∈ list, (f a).In scope :=
  List.forall_mem_map

@[simp] theorem allIn_flatMap {α : Type} {f : α → List Slot} {list : List α} :
    AllIn scope (list.flatMap f) ↔ ∀ a ∈ list, AllIn scope (f a) := by
  simp only [AllIn, List.mem_flatMap]
  grind

end Slot

section Scopes

variable {scope : Scope}

open Slot (AllIn)

@[simp] theorem Comment.allIn (c : Comment) : AllIn scope c.slots := by
  simp [slots]

@[simp] theorem allIn_typeClause (clause? : Option TypeClause) :
    AllIn scope (TypeClause.slots clause?) := by
  cases clause? <;> simp [TypeClause.slots]

@[simp] theorem allIn_tokens (t? : Option Token) : AllIn scope (Slot.tokens t?) := by
  simp [Slot.tokens]

@[simp] theorem Parameter.allIn (p : Parameter) : AllIn scope (p.slots scope) := by
  simp [slots]

@[simp] theorem FunctionLiteral.allIn (name? : Option Piece) (f : FunctionLiteral) :
    AllIn scope (f.slots scope name?) := by
  simp [slots]

@[simp] theorem Member.allIn (m : Member) : AllIn scope (m.slots scope) := by
  cases m <;> simp [slots]

@[simp] theorem TemplatePart.allIn (p : TemplatePart) : AllIn scope (p.slots scope) := by
  cases p <;> simp [slots]

theorem Expression.allIn (e : Expression) : AllIn scope (e.slots scope) := by
  cases e with
  | member | conditional | coalesce | template =>
    rw [slots]
    split <;> simp
  | _ => simp [slots]

@[simp] theorem Assignment.allIn (a : Assignment) : AllIn scope (a.slots scope) := by
  simp [slots]

@[simp] theorem ElseIf.allIn (clause : ElseIf) : AllIn scope (clause.slots scope) := by
  simp [slots]

@[simp] theorem PrintItem.allIn (item : PrintItem) : AllIn scope (item.slots scope) := by
  cases item <;> simp [slots]

/-- The name of the statement, if it is a namespace. -/
def Statement.namespaceName? : Statement → Option DottedName
  | .namespaceBlock _ name _ _ => some name
  | _ => none

/-- The statements of a namespace are the only parts that are emitted in a scope of their own. -/
theorem Statement.allIn (s : Statement) :
    AllIn ⟨scope.resolver, (s.namespaceName?.map DottedName.parts).or scope.enclosing⟩
      (s.slots scope) := by
  cases s with
  | namespaceBlock keyword name body endToken =>
    exact Slot.allIn_map.mpr fun _ _ => rfl
  | _ =>
    show AllIn scope _
    simp [slots, Else.slots, ForStep.slots]

end Scopes

namespace Site

/-- The name of the site, if it is a namespace. -/
def namespaceName? (site : Site) : Option DottedName :=
  match site.tree with
  | .statement s => s.namespaceName?
  | _ => none

/-- The dotted name that the site is. -/
def dottedName? (site : Site) : Option DottedName :=
  match site.tree with
  | .expression e => DottedName.ofExpression? e
  | _ => none

/-- The second site is the first one or lies in one of its parts, with so many function literals of
deferred operands around it and with the given name as that of the innermost namespace between the
two. A dotted name counts as a whole: what it consists of is not looked at. -/
inductive Contains : Site → Site → Option DottedName → Nat → Prop
  | self (site : Site) : Contains site site none 0
  | part {site part inner : Site} {literals : Nat} {name? : Option DottedName} {count : Nat} :
      site.dottedName? = none → .part part literals ∈ site.slots →
      Contains part inner name? count →
      Contains site inner (name?.or site.namespaceName?) (literals + count)

theorem allIn (site : Site) : Slot.AllIn ⟨site.scope.resolver,
    (site.namespaceName?.map DottedName.parts).or site.scope.enclosing⟩ site.slots := by
  obtain ⟨scope, ownerLine?, tree⟩ := site
  cases tree with
  | body statements =>
    show Slot.AllIn scope (statements.map (Slot.statement scope))
    simp
  | block b =>
    show Slot.AllIn scope (b.statements.map (Slot.statement scope))
    simp
  | statement s => exact s.allIn
  | expression e => exact e.allIn

/-- The namespace around a part is the site itself, or else the one around the site. -/
theorem scope_of_part {site part : Site} {literals : Nat} (h : .part part literals ∈ site.slots) :
    part.scope = ⟨site.scope.resolver,
      (site.namespaceName?.map DottedName.parts).or site.scope.enclosing⟩ :=
  site.allIn (.part part literals) h

namespace Contains

variable {site inner : Site} {name? : Option DottedName} {count : Nat}

theorem holds (h : site.Contains inner name? count) : site.Holds inner count := by
  induction h with
  | self site => exact .self site
  | part _ hpart _ ih => exact .part hpart ih

/-- The scope of a site is what the namespaces around it say. -/
theorem scope_eq (h : site.Contains inner name? count) : inner.scope =
    ⟨site.scope.resolver, (name?.map DottedName.parts).or site.scope.enclosing⟩ := by
  induction h with
  | self site => rfl
  | part _ hpart _ ih => rw [ih, scope_of_part hpart, Option.map_or, Option.or_assoc]

end Contains

/-- The site declares a function of the innermost namespace or refers to a function, bare or dotted.
The identifier that is written for that has the position, and these are the parts of its name. -/
inductive Names (enclosing? : Option DottedName) : Site → Position → List String → Prop
  | declaration {scope : Scope} {ownerLine? : Option Nat} {n : DottedName} {name : Token}
      {literal : FunctionLiteral} : enclosing? = some n →
      Names enclosing? ⟨scope, ownerLine?, .statement (.function name literal)⟩ name.start
        (n.parts ++ [name.text])
  | bare {scope : Scope} {ownerLine? : Option Nat} {n : DottedName} {name : Token} :
      enclosing? = some n →
      Names enclosing? ⟨scope, ownerLine?, .expression (.identifier name)⟩ name.start
        (n.parts ++ [name.text])
  | dotted {scope : Scope} {ownerLine? : Option Nat} {object : Expression} {dot name : Token}
      {chain : DottedName} :
      DottedName.ofExpression? (.member object dot name) = some chain →
      Names enclosing? ⟨scope, ownerLine?, .expression (.member object dot name)⟩
        chain.root.start chain.parts

end Site

/-! ## Global names -/

section Emission

variable {scope : Scope} {n : DottedName}

theorem Scope.declaredName_eq (h : scope.enclosing = some n.parts) (name : String) :
    scope.declaredName name = NameStyle.flattened.spell (n.parts ++ [name]) := by
  have hparts : n.parts ≠ [] := by simp [DottedName.parts, DottedName.tokens]
  rw [declaredName, enclosingName, h, NameStyle.spell_concat _ hparts]
  rfl

theorem Statement.emit_function (scope : Scope) (name : Token) (literal : FunctionLiteral) : ∃ rest,
    Statement.emit scope (.function name literal) = literal.keyword.piece :: .text " " ::
      .written name.start (scope.declaredName name.text) :: rest := by
  obtain ⟨keyword, opening, parameters, closing, returnType?, body, endToken⟩ := literal
  rw [Statement.emit, FunctionLiteral.emit]
  exact ⟨_, rfl⟩

theorem Expression.emit_sibling {name : Token} (h : scope.isSibling name.text = true) :
    Expression.emit scope (.identifier name) =
      [.written name.start (scope.declaredName name.text)] := by
  rw [Expression.emit, Scope.referredName, if_pos h]

theorem Expression.emit_dotted {object : Expression} {dot name : Token} {chain : DottedName}
    (hchain : DottedName.ofExpression? (.member object dot name) = some chain)
    (h : scope.resolver.startsWithNamespace chain.parts = true) :
    Expression.emit scope (.member object dot name) =
      [.written chain.root.start (chain.text .flattened)] := by
  rw [DottedName.ofExpression?] at hchain
  rw [Expression.emit, hchain]
  exact if_pos h

end Emission

/-- Whoever names a function that the table knows writes the global name of the function. -/
theorem Site.Names.emit_eq {table : NamespaceTable} {parts : List String} {f : String}
    {enclosing? : Option DottedName} {site : Site} {position : Position} {spelled : List String}
    (hknows : table.Knows parts f)
    (hscope : site.scope = ⟨table.resolver, enclosing?.map DottedName.parts⟩)
    (h : site.Names enclosing? position spelled)
    (hspelled : spelled.map Text.foldCase = (parts ++ [f]).map Text.foldCase) :
    let piece := Piece.written position (NameStyle.flattened.spell spelled)
    site.emit = [piece] ∨ ∃ name literal rest, site.tree = .statement (.function name literal) ∧
      site.emit = literal.keyword.piece :: .text " " :: piece :: rest := by
  intro piece
  cases h with
  | @declaration scope ownerLine? n name literal henclosing =>
    subst henclosing
    obtain rfl : scope = ⟨table.resolver, some n.parts⟩ := hscope
    obtain ⟨rest, hrest⟩ := Statement.emit_function ⟨table.resolver, some n.parts⟩ name literal
    rw [Scope.declaredName_eq rfl] at hrest
    exact .inr ⟨name, literal, rest, rfl, hrest⟩
  | @bare scope ownerLine? n name henclosing =>
    subst henclosing
    obtain rfl : scope = ⟨table.resolver, some n.parts⟩ := hscope
    -- one part is the last on either side, so the namespaces agree, too
    rw [List.map_append, List.map_append] at hspelled
    obtain ⟨hparts, hname⟩ := List.append_inj' hspelled rfl
    have hsibling : Scope.isSibling ⟨table.resolver, some n.parts⟩ name.text = true :=
      (hknows.congr hparts (List.cons.inj hname).1).function
    have hemit := Expression.emit_sibling hsibling
    rw [Scope.declaredName_eq rfl] at hemit
    exact .inl hemit
  | @dotted scope ownerLine? object dot name chain hchain =>
    obtain rfl : scope = _ := hscope
    refine .inl (Expression.emit_dotted hchain ?_)
    exact (NamespaceTable.startsWithNamespace_congr hspelled).trans (hknows.root [f])

namespace State

/-- The innermost namespace around a site is the one that stands between it and the tree, or else
the one that the state is in. -/
theorem scope_of_contains {s : State} {tree : Tree} {site : Site} {name? : Option DottedName}
    {count : Nat} (hsite : (s.site tree).Contains site name? count) :
    site.scope = ⟨s.resolver, (name?.or s.enclosingNamespace?).map DottedName.parts⟩ := by
  rw [hsite.scope_eq, Option.map_or]
  rfl

/-- Whoever names a function that the table knows is emitted as a fragment with the global name of
the function, mapped to the place of the name. -/
theorem mapped_mem_emit_of_names (s : State) (tree : Tree) {table : NamespaceTable}
    {parts : List String} {f : String} (hresolver : s.resolver = table.resolver)
    (hknows : table.Knows parts f) {site : Site} {name? : Option DottedName} {count : Nat}
    (hsite : (s.site tree).Contains site name? count)
    {position : Position} {spelled : List String}
    (hnames : site.Names (name?.or s.enclosingNamespace?) position spelled)
    (hspelled : spelled.map Text.foldCase = (parts ++ [f]).map Text.foldCase) :
    .mapped position s.source (NameStyle.flattened.spell spelled) ∈ (s.emit tree).1 := by
  have hwrites : s.Writes tree site.emit count :=
    writes_of_inside hsite.holds.inside site.balanced
  apply hwrites.mapped_mem
  have hscope := scope_of_contains hsite
  rw [hresolver] at hscope
  rcases hnames.emit_eq hknows hscope hspelled with hemit | ⟨_, _, _, -, hemit⟩
  · simp [hemit]
  · simp [hemit]

/-- A function that is registered has one global name. Wherever it is declared in its namespace, a
bare name refers to it from inside or a dotted name from anywhere, in whatever case, that name is
written as one identifier, at the place of the name that stands there. -/
theorem emit_global_name (s : State) (tree : Tree) {registrations : List Registration}
    {parts : List String} {f : String}
    (hresolver : s.resolver = (NamespaceTable.ofRegistrations registrations).resolver)
    (hfunction : .function (NameStyle.dotted.spell parts) f ∈ registrations)
    (hparts : parts ≠ []) (hdots : ∀ part ∈ parts, '.' ∉ part.toList)
    {site : Site} {name? : Option DottedName} {count : Nat}
    (hsite : (s.site tree).Contains site name? count)
    {position : Position} {spelled : List String}
    (hnames : site.Names (name?.or s.enclosingNamespace?) position spelled)
    (hspelled : spelled.map Text.foldCase = (parts ++ [f]).map Text.foldCase) :
    let identifier := NameStyle.flattened.spell spelled
    Text.foldCase identifier = Text.foldCase (NameStyle.flattened.spell (parts ++ [f])) ∧
    s.Writes tree site.emit count ∧
    (site.emit = [.written position identifier] ∨
      ∃ name literal rest, site.tree = .statement (.function name literal) ∧
        site.emit = literal.keyword.piece :: .text " " :: .written position identifier ::
          rest) := by
  intro identifier
  have hknows := NamespaceTable.knows_ofRegistrations hfunction hparts hdots
  have hscope := scope_of_contains hsite
  rw [hresolver] at hscope
  exact ⟨NameStyle.flattened.foldCase_spell_congr hspelled,
    writes_of_inside hsite.holds.inside site.balanced,
    Site.Names.emit_eq hknows hscope hnames hspelled⟩

/-- In a namespace `FOO.bar`, a call of `Helper` is one of `helper` of `Foo.Bar`. -/
theorem emit_global_name_call :
    let registrations : List Registration := [.function "Foo.Bar" "helper"]
    let token (text : String) : Token := { (default : Token) with text }
    let s : State := ⟨{}, (NamespaceTable.ofRegistrations registrations).resolver, "", 0, [], {}⟩
    let name : DottedName := ⟨token "FOO", [⟨default, token "bar"⟩]⟩
    let callee : Expression := .identifier (token "Helper")
    let call : Statement := .expression (.call callee default [] default)
    let tree : Tree := .statement (.namespaceBlock default name [call] default)
    let site : Site := ⟨s.scope.inside name, none, .expression callee⟩
    (.function (NameStyle.dotted.spell ["Foo", "Bar"]) "helper" ∈ registrations ∧
      (s.site tree).Contains site (some name) 0 ∧
      site.Names (some name) default ["FOO", "bar", "Helper"]) ∧
    Text.foldCase "FOO_bar_Helper" = Text.foldCase "Foo_Bar_helper" ∧
    s.Writes tree [.written default "FOO_bar_Helper"] 0 := by
  intro registrations token s name callee call tree site
  have hfunction : .function (NameStyle.dotted.spell ["Foo", "Bar"]) "helper" ∈ registrations :=
    List.mem_cons_self
  let inside (tree : Tree) : Site := ⟨s.scope.inside name, none, tree⟩
  have hcall : (inside (.expression (.call callee default [] default))).Contains site none 0 :=
    .part rfl List.mem_cons_self (.self site)
  have hstatement : (inside (.statement call)).Contains site none 0 :=
    .part rfl List.mem_cons_self hcall
  have hsite : (s.site tree).Contains site (some name) 0 :=
    .part rfl List.mem_cons_self hstatement
  have hnames : site.Names (some name) default ["FOO", "bar", "Helper"] := .bare rfl
  obtain ⟨hfold, hwrites, hemit⟩ := emit_global_name s tree rfl hfunction (by decide) (by decide)
    hsite hnames (by decide)
  rcases hemit with hemit | ⟨_, _, _, htree, -⟩
  · rw [hemit] at hwrites
    exact ⟨⟨hfunction, hsite, hnames⟩, hfold, hwrites⟩
  · cases htree

end State

end Downlevel
