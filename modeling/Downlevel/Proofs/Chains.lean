import Downlevel.Proofs.RegisteredNames
import Downlevel.Proofs.Walking

/-!
# Chains of accesses

A dotted access asks whether it starts with a namespace, and if it does not, the access that it
stands behind asks again, with one name less. So a chain `a.b.c` might be flattened up to some name
and keep its dots behind that. A table never answers like that: it looks at the first name only, so
all accesses of a chain get the same answer.

A chain is taken apart here into the object that its accesses start from and the accesses themselves
(`Expression.access_innermost`). Main statement: a chain that starts from the name of a registered
namespace becomes one identifier, and every other chain keeps all its dots (`State.emit_chain`).
-/

namespace Downlevel

/-! ## Chains -/

namespace Link

/-- The dot and the name, as they were written. -/
def pieces (link : Link) : List Piece := [link.dot.piece, link.name.piece]

/-- The dot and the name, as they are written for a source file. -/
def fragments (source : String) (link : Link) : List Fragment :=
  [.mapped link.dot.start source link.dot.text, .mapped link.name.start source link.name.text]

end Link

namespace Expression

/-- What the accesses of a chain start from. -/
def innermost : Expression → Expression
  | .member object _ _ => object.innermost
  | e => e

/-- The accesses of a chain, from the innermost on. -/
def accesses : Expression → List Link
  | .member object dot name => object.accesses ++ [⟨dot, name⟩]
  | _ => []

/-- The expression with accesses behind it. -/
def access (e : Expression) (links : List Link) : Expression :=
  links.foldl (fun object link => .member object link.dot link.name) e

theorem access_concat (e : Expression) (links : List Link) (link : Link) :
    e.access (links ++ [link]) = .member (e.access links) link.dot link.name :=
  List.foldl_concat ..

/-- Every expression is its innermost object with its accesses behind it. -/
theorem access_innermost (e : Expression) : e.innermost.access e.accesses = e := by
  fun_induction innermost e with
  | case1 object dot name ih => rw [accesses, access_concat, ih]
  | case2 e he =>
    cases e with
    | member object dot name => exact absurd rfl (he object dot name)
    | _ => rfl

theorem innermost_ne_member (e object : Expression) (dot name : Token) :
    e.innermost ≠ .member object dot name := by
  fun_induction innermost e with
  | case1 _ _ _ ih => exact ih
  | case2 e he => exact he object dot name

end Expression

namespace DottedName

theorem toExpression_eq (n : DottedName) :
    n.toExpression = (Expression.identifier n.root).access n.links := rfl

theorem ofExpression?_toExpression (n : DottedName) : ofExpression? n.toExpression = some n := by
  obtain ⟨root, links⟩ := n
  induction links using List.reverseRecOn with
  | nil => rfl
  | append_singleton links link ih =>
    rw [toExpression_eq] at ih ⊢
    rw [Expression.access_concat, ofExpression?, ih]
    rfl

/-- Accesses make no dotted name of what is none. -/
theorem ofExpression?_access {e : Expression} (h : ofExpression? e = none) (links : List Link) :
    ofExpression? (e.access links) = none := by
  induction links using List.reverseRecOn with
  | nil => exact h
  | append_singleton links link ih =>
    rw [Expression.access_concat, ofExpression?, ih, Option.map_none]

end DottedName

/-! ## What is written for a chain -/

namespace Resolver

/-- What a dotted name starts with is decided by its first name. -/
def LooksAtRoot (resolver : Resolver) : Prop :=
  ∀ root rest, resolver.startsWithNamespace (root :: rest) = resolver.startsWithNamespace [root]

end Resolver

theorem NamespaceTable.looksAtRoot (table : NamespaceTable) : table.resolver.LooksAtRoot :=
  fun _ _ => rfl

namespace Expression

variable {scope : Scope}

/-- Accesses that are not flattened, neither all of them nor the first ones, are written behind the
expression. -/
theorem emit_access (e : Expression) {links : List Link}
    (h : ∀ first, first <+: links → first ≠ [] → (e.access first).flattened? scope = none) :
    (e.access links).emit scope = e.emit scope ++ links.flatMap Link.pieces := by
  induction links using List.reverseRecOn with
  | nil => simp [access]
  | append_singleton links link ih =>
    have hlast := h (links ++ [link]) List.prefix_rfl (by simp)
    have hfirst := ih fun first hfirst => h first (hfirst.trans (List.prefix_append links [link]))
    rw [access_concat] at hlast
    rw [access_concat, emit_member, hlast, hfirst, List.flatMap_append, List.append_assoc]
    rfl

/-- A chain that starts from a name is flattened as a whole if the name is that of a namespace, and
not at all otherwise. -/
theorem emit_access_identifier (hscope : scope.resolver.LooksAtRoot) (root : Token)
    {links : List Link} (hlinks : links ≠ []) :
    ((identifier root).access links).emit scope =
      if scope.resolver.startsWithNamespace [root.text] then
        [.written root.start (DottedName.text ⟨root, links⟩ .flattened)]
      else emit scope (.identifier root) ++ links.flatMap Link.pieces := by
  have hname (first : List Link) :
      DottedName.ofExpression? ((identifier root).access first) = some ⟨root, first⟩ :=
    DottedName.ofExpression?_toExpression ⟨root, first⟩
  have hstarts (first : List Link) :
      scope.resolver.startsWithNamespace (DottedName.parts ⟨root, first⟩) =
        scope.resolver.startsWithNamespace [root.text] := hscope root.text _
  split
  next hroot =>
    obtain ⟨before, link, rfl⟩ := (List.eq_nil_or_concat' links).resolve_left hlinks
    have hchain := hname (before ++ [link])
    rw [access_concat] at hchain ⊢
    exact emit_dotted hchain ((hstarts _).trans hroot)
  next hroot =>
    apply emit_access
    intro first _ _
    -- what is flattened starts with a namespace
    cases hflat : ((identifier root).access first).flattened? scope with
    | none => rfl
    | some piece =>
      obtain ⟨chain, hchain, hnamespace⟩ := startsWithNamespace_of_flattened? hflat
      obtain rfl := Option.some.inj ((hname first).symm.trans hchain)
      exact absurd ((hstarts first).symm.trans hnamespace) hroot

/-- A chain that does not start from a name keeps its dots. -/
theorem emit_access_of_ne_name (scope : Scope) {e : Expression}
    (h : DottedName.ofExpression? e = none) (links : List Link) :
    (e.access links).emit scope = e.emit scope ++ links.flatMap Link.pieces := by
  apply emit_access
  intro first _ _
  cases hflat : (e.access first).flattened? scope with
  | none => rfl
  | some piece =>
    have hname := isSome_ofExpression?_of_flattened? hflat
    rw [DottedName.ofExpression?_access h] at hname
    cases hname

end Expression

/-! ## Registered namespaces -/

namespace Text

theorem toLower_eq_dot_iff {c : Char} : c.toLower = '.' ↔ c = '.' := by
  constructor
  · exact eq_dot_of_toLower
  · rintro rfl
    rfl

/-- Cutting at the dots and lower case do not get in each other's way. -/
theorem splitAt_map_toLower (text : List Char) :
    splitAt '.' (text.map Char.toLower) = (splitAt '.' text).map (List.map Char.toLower) := by
  induction text with
  | nil => rfl
  | cons c rest ih =>
    rw [List.map_cons, splitAt, splitAt, ih]
    simp only [toLower_eq_dot_iff]
    by_cases hc : c = '.'
    · rw [if_pos hc, if_pos hc]
      rfl
    · rw [if_neg hc, if_neg hc]
      cases splitAt '.' rest <;> rfl

end Text

namespace NamespaceTable

theorem paths_map_toLower (path : List Char) (parts : List (List Char)) :
    paths (path.map Char.toLower) (parts.map (List.map Char.toLower)) =
      (paths path parts).map Text.foldCase := by
  induction parts generalizing path with
  | nil => rfl
  | cons part rest ih =>
    have hlonger : (if (path.map Char.toLower).isEmpty then part.map Char.toLower
        else path.map Char.toLower ++ '.' :: part.map Char.toLower) =
        (if path.isEmpty then part else path ++ '.' :: part).map Char.toLower := by
      cases path with
      | nil => rfl
      | cons c path =>
        have hdot : Char.toLower '.' = '.' := rfl
        simp [hdot]
    rw [List.map_cons, paths, paths, hlonger, ih, List.map_cons, Text.foldCase,
      String.toList_ofList]

end NamespaceTable

namespace Registration

/-- The namespaces that are registered, as they are written: the path through each of the parts. -/
def namespaces (r : Registration) : List String :=
  NamespaceTable.paths [] (Text.splitAt '.' r.enclosing.toList)

theorem closure_enclosing (r : Registration) :
    NamespaceTable.closure r.enclosing = r.namespaces.map Text.foldCase := by
  rw [NamespaceTable.closure, Text.foldCase, String.toList_ofList, Text.splitAt_map_toLower]
  exact NamespaceTable.paths_map_toLower [] _

/-- The name is, up to case, that of a namespace that has been registered. -/
def IsRegistered (registrations : List Registration) (name : String) : Prop :=
  ∃ r ∈ registrations, ∃ written ∈ r.namespaces, Text.foldCase written = Text.foldCase name

theorem isNamespace_iff {registrations : List Registration} {name : String} :
    (NamespaceTable.ofRegistrations registrations).isNamespace name = true ↔
      IsRegistered registrations name := by
  rw [NamespaceTable.isNamespace, List.contains_iff_mem, NamespaceTable.mem_namespaces_iff]
  simp only [closure_enclosing, List.mem_map, IsRegistered]

end Registration

namespace Expression

variable {scope : Scope} {registrations : List Registration} {links : List Link}

theorem startsWithNamespace_iff
    (hresolver : scope.resolver = (NamespaceTable.ofRegistrations registrations).resolver)
    (root : Token) : scope.resolver.startsWithNamespace [root.text] = true ↔
      Registration.IsRegistered registrations root.text := by
  rw [hresolver]
  exact Registration.isNamespace_iff

theorem emit_access_of_isRegistered (scope : Scope)
    (hresolver : scope.resolver = (NamespaceTable.ofRegistrations registrations).resolver)
    {root : Token} (hroot : Registration.IsRegistered registrations root.text)
    (hlinks : links ≠ []) : ((identifier root).access links).emit scope =
      [.written root.start (DottedName.text ⟨root, links⟩ .flattened)] := by
  have hscope : scope.resolver.LooksAtRoot := hresolver ▸ NamespaceTable.looksAtRoot _
  rw [emit_access_identifier hscope root hlinks]
  exact if_pos ((startsWithNamespace_iff hresolver root).mpr hroot)

theorem emit_access_of_not_isRegistered (scope : Scope)
    (hresolver : scope.resolver = (NamespaceTable.ofRegistrations registrations).resolver)
    {root : Token} (hroot : ¬ Registration.IsRegistered registrations root.text)
    (hlinks : links ≠ []) : ((identifier root).access links).emit scope =
      emit scope (.identifier root) ++ links.flatMap Link.pieces := by
  have hscope : scope.resolver.LooksAtRoot := hresolver ▸ NamespaceTable.looksAtRoot _
  rw [emit_access_identifier hscope root hlinks]
  exact if_neg (mt (startsWithNamespace_iff hresolver root).mp hroot)

end Expression

/-! ## Chains in a state -/

namespace State

theorem emit_expression (s : State) (e : Expression) :
    s.emit (.expression e) = (s.render (e.emit s.scope), s.record (e.emit s.scope)) := rfl

theorem render_links (s : State) (links : List Link) :
    s.render (links.flatMap Link.pieces) = links.flatMap (Link.fragments s.source) := by
  rw [render, Piece.renderAll, List.flatMap_assoc]
  rfl

theorem helpers_links (links : List Link) : Piece.helpers (links.flatMap Link.pieces) = [] := by
  induction links with
  | nil => rfl
  | cons link rest ih =>
    rw [List.flatMap_cons, Piece.helpers_append, ih]
    rfl

/-- Accesses behind an object leave the state as the object does. -/
theorem emit_of_links {s : State} {e object : Expression} {links : List Link}
    (h : e.emit s.scope = object.emit s.scope ++ links.flatMap Link.pieces) :
    s.emit (.expression e) = ((s.emit (.expression object)).1 ++
      links.flatMap (Link.fragments s.source), (s.emit (.expression object)).2) := by
  have hrecord : s.record (e.emit s.scope) = s.record (object.emit s.scope) := by
    rw [h, record, record, Piece.helpers_append, helpers_links, List.append_nil]
  rw [emit_expression, emit_expression, hrecord, h, render_append, render_links]

/-- A name is written as one fragment, and no helper is called for it. -/
theorem emit_identifier (s : State) (name : Token) : s.emit (.expression (.identifier name)) =
    ([.mapped name.start s.source (s.scope.referredName name.text)], s) := by
  rw [emit_expression, Expression.emit]
  rfl

/-- Each access has two fragments. -/
theorem length_flatMap_fragments (source : String) (links : List Link) :
    (links.flatMap (Link.fragments source)).length = 2 * links.length := by
  induction links with
  | nil => rfl
  | cons link rest ih =>
    rw [List.flatMap_cons, List.length_append, ih, List.length_cons, Link.fragments]
    simp only [List.length_cons, List.length_nil]
    omega

/-- A chain of dotted accesses is flattened as a whole or not at all, whatever namespaces a table
knows. If it starts from the name of a registered one, in whatever case, its names become one
identifier in the place of the first. Otherwise the object that it starts from is written as it is
by itself, and all dots and names behind it as they stand. Never is a chain flattened up to some
name with dots kept behind that. -/
theorem emit_chain (s : State) {registrations : List Registration}
    (hresolver : s.resolver = (NamespaceTable.ofRegistrations registrations).resolver)
    (object : Expression) (dot name : Token) :
    let chain : Expression := .member object dot name
    let innermost := s.emit (.expression chain.innermost)
    let dotted := (innermost.1 ++ chain.accesses.flatMap (Link.fragments s.source), innermost.2)
    let flattened (root : Token) (links : List Link) : Fragment := .mapped root.start s.source
      (Text.join "_" (root.text :: links.map fun link => link.name.text))
    (chain.innermost.access chain.accesses = chain ∧ chain.accesses ≠ [] ∧
      ∀ object dot name, chain.innermost ≠ .member object dot name) ∧
    (∀ root, chain.innermost = .identifier root →
      (Registration.IsRegistered registrations root.text →
        s.emit (.expression chain) = ([flattened root chain.accesses], s)) ∧
      (¬ Registration.IsRegistered registrations root.text →
        s.emit (.expression chain) = dotted) ∧
      ∀ first rest, chain.accesses = first ++ rest → first ≠ [] → rest ≠ [] →
        (s.emit (.expression chain)).1 ≠
          flattened root first :: rest.flatMap (Link.fragments s.source)) ∧
    ((∀ root, chain.innermost ≠ .identifier root) → s.emit (.expression chain) = dotted) := by
  intro chain innermost dotted flattened
  have hchain : chain.innermost.access chain.accesses = chain := chain.access_innermost
  have haccesses : chain.accesses ≠ [] := by
    rw [Expression.accesses]
    exact List.concat_ne_nil _ _
  have hobject := chain.innermost_ne_member
  refine ⟨⟨hchain, haccesses, hobject⟩, ?_, ?_⟩
  · intro root hroot
    have hflattened (links : List Link) : flattened root links =
        .mapped root.start s.source (DottedName.text ⟨root, links⟩ .flattened) := by
      simp [flattened, DottedName.text, DottedName.parts, DottedName.tokens, NameStyle.spell,
        NameStyle.separator, Function.comp_def]
    have hregistered (h : Registration.IsRegistered registrations root.text) :
        s.emit (.expression chain) = ([flattened root chain.accesses], s) := by
      have hemit := Expression.emit_access_of_isRegistered s.scope hresolver h haccesses
      rw [← hroot, hchain] at hemit
      rw [emit_expression, hemit, hflattened]
      rfl
    have hother (h : ¬ Registration.IsRegistered registrations root.text) :
        s.emit (.expression chain) = dotted := by
      have hemit :=
        Expression.emit_access_of_not_isRegistered s.scope hresolver h haccesses
      rw [← hroot, hchain] at hemit
      exact emit_of_links hemit
    refine ⟨hregistered, hother, fun first rest hsplit hfirst hrest heq => ?_⟩
    · -- there are too many fragments behind the identifier, or too few
      have hlength := congrArg List.length heq
      have hrest_pos := List.length_pos_iff.mpr hrest
      have hfirst_pos := List.length_pos_iff.mpr hfirst
      rw [List.length_cons, length_flatMap_fragments] at hlength
      by_cases h : Registration.IsRegistered registrations root.text
      · rw [hregistered h, List.length_singleton] at hlength
        omega
      · have hname : innermost = s.emit (.expression (.identifier root)) := by
          simp only [innermost, hroot]
        rw [hother h, List.length_append, length_flatMap_fragments, hsplit, List.length_append,
          hname, emit_identifier, List.length_singleton] at hlength
        omega
  · intro hname
    have hnone : DottedName.ofExpression? chain.innermost = none := by
      cases hinner : chain.innermost with
      | identifier root => exact absurd hinner (hname root)
      | member object dot name => exact absurd hinner (hobject object dot name)
      | _ => rfl
    have hemit := Expression.emit_access_of_ne_name s.scope hnone chain.accesses
    rw [hchain] at hemit
    exact emit_of_links hemit

/-- With a namespace `Foo.Bar`, the chain `FOO.x.y` becomes one identifier, and neither `m.x.y` nor
`FOO().x.y` loses a dot. -/
theorem emit_chain_three_objects :
    let registrations : List Registration := [.namespaceName "Foo.Bar"]
    let token (text : String) : Token := { (default : Token) with text }
    let s : State := ⟨{}, (NamespaceTable.ofRegistrations registrations).resolver, "", 0, [], {}⟩
    let chain (object : Expression) : Expression :=
      .member (.member object (token ".") (token "x")) (token ".") (token "y")
    let foo : Expression := .identifier (token "FOO")
    let plain (text : String) : Fragment := .mapped default "" text
    let dots := [".", "x", ".", "y"].map plain
    Registration.IsRegistered registrations "FOO" ∧
      s.emit (.expression (chain foo)) = ([plain "FOO_x_y"], s) ∧
      (s.emit (.expression (chain foo))).1 ≠ plain "FOO_x" :: [".", "y"].map plain ∧
      ¬ Registration.IsRegistered registrations "m" ∧
      (s.emit (.expression (chain (.identifier (token "m"))))).1 = plain "m" :: dots ∧
      (s.emit (.expression (chain (.call foo (token "(") [] (token ")"))))).1 =
        ["FOO", "(", ")"].map plain ++ dots := by
  intro registrations token s chain foo plain dots
  have hfoo : Registration.IsRegistered registrations "FOO" :=
    ⟨_, List.mem_cons_self, "Foo", by decide, by decide⟩
  have hm : ¬ Registration.IsRegistered registrations "m" := by
    rw [← Registration.isNamespace_iff]
    decide
  have hresolver : s.resolver = (NamespaceTable.ofRegistrations registrations).resolver := rfl
  have hchain (object : Expression) :=
    emit_chain s hresolver (.member object (token ".") (token "x")) (token ".") (token "y")
  refine ⟨hfoo, ?_, ?_, hm, ?_, ?_⟩
  · exact ((hchain foo).2.1 (token "FOO") rfl).1 hfoo
  · exact ((hchain foo).2.1 (token "FOO") rfl).2.2 [⟨token ".", token "x"⟩]
      [⟨token ".", token "y"⟩] rfl (List.cons_ne_nil _ _) (List.cons_ne_nil _ _)
  · exact congrArg Prod.fst (((hchain (.identifier (token "m"))).2.1 (token "m") rfl).2.1 hm)
  · refine congrArg Prod.fst ((hchain (.call foo (token "(") [] (token ")"))).2.2 ?_)
    intro root hroot
    cases hroot

end State

end Downlevel
