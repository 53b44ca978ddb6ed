import Downlevel.Proofs.Chains
import Downlevel.Tree.Construction

/-!
# Which expressions are dotted names

The name of a class or of a namespace is given as an expression, and it is one of eighteen kinds, of
which only two may occur in a dotted name: an identifier, and above it as many dotted accesses as
there are dots (`Expression.IsChain`). Reading the name goes from the last access to the identifier,
but the parts are listed from the identifier on. An expression of any other kind, alone or below
accesses, is refused with the range of the whole expression, and whatever else the node would
consist of.

Main statement: `DottedName.ofExpression_reads_chains`.
-/

namespace Downlevel

/-- An identifier under dotted accesses: `root` is the identifier, and `links` are the dots and the
names behind it, as they are written. -/
inductive Expression.IsChain : (e : Expression) → (root : Token) → (links : List Link) → Prop
  | identifier (name : Token) : IsChain (.identifier name) name []
  | member {object : Expression} {root : Token} {links : List Link} (dot name : Token) :
      IsChain object root links → IsChain (.member object dot name) root (links ++ [⟨dot, name⟩])

namespace DottedName

open Expression (IsChain)

variable {e : Expression} {n : DottedName} {root : Token} {links : List Link}

/-! ## Chains are what is read -/

theorem ofExpression?_of_isChain (h : e.IsChain root links) :
    ofExpression? e = some ⟨root, links⟩ := by
  induction h with
  | identifier name => rfl
  | member dot name _ ih =>
    rw [ofExpression?, ih]
    rfl

theorem isChain_of_ofExpression? (h : ofExpression? e = some n) : e.IsChain n.root n.links := by
  fun_induction ofExpression? e generalizing n with
  | case1 name =>
    obtain rfl := Option.some.inj h
    exact .identifier name
  | case2 object dot name ih =>
    obtain ⟨inner, hinner, rfl⟩ := Option.map_eq_some_iff.mp h
    exact (ih hinner).member dot name
  | case3 => cases h

theorem ofExpression?_eq_some_iff : ofExpression? e = some n ↔ e.IsChain n.root n.links :=
  ⟨isChain_of_ofExpression?, ofExpression?_of_isChain⟩

theorem ofExpression_eq_ok_iff : ofExpression e = .ok n ↔ e.IsChain n.root n.links := by
  rw [← ofExpression?_eq_some_iff, ofExpression]
  cases ofExpression? e <;> simp

/-- The error of an expression that is no dotted name. -/
theorem ofExpression_of_not_isChain (h : ∀ root links, ¬ e.IsChain root links) :
    ofExpression e = .error (.notDottedName e.range) := by
  rw [ofExpression]
  cases hname : ofExpression? e with
  | none => rfl
  | some n => exact absurd (isChain_of_ofExpression? hname) (h n.root n.links)

theorem toExpression_of_isChain (h : e.IsChain root links) :
    toExpression ⟨root, links⟩ = e := by
  induction h with
  | identifier name => rfl
  | member dot name _ ih =>
    rw [toExpression_eq] at ih ⊢
    rw [Expression.access_concat, ih]

/-! ## What a dotted name says of its parts -/

@[simp] theorem last_nil (root : Token) : last ⟨root, []⟩ = root.text := rfl

@[simp] theorem last_concat (root : Token) (links : List Link) (link : Link) :
    last ⟨root, links ++ [link]⟩ = link.name.text := by
  simp [last]

theorem length_tokens (n : DottedName) : n.tokens.length = n.links.length + 1 := by
  rw [tokens, List.length_cons, List.length_map]

/-- The parts are found again between the dots of the text, unless they have dots themselves. -/
theorem splitOn_text_dotted (h : ∀ token ∈ n.tokens, '.' ∉ token.text.toList) :
    (n.text .dotted).toList.splitOn '.' = n.parts.map String.toList := by
  rw [← Text.splitAt_eq_splitOn]
  apply Text.splitAt_join
  · rw [parts, tokens]
    exact List.cons_ne_nil _ _
  · intro part hpart
    obtain ⟨token, htoken, rfl⟩ := List.mem_map.mp hpart
    exact h token htoken

/-! ## Nodes with a name -/

variable {keyword opening closing endToken : Token} {arguments : List Expression} {body : Body}

theorem ofConstruct_of_error {error : ConstructionError} (h : ofExpression e = .error error) :
    Expression.ofConstruct keyword e opening arguments closing = .error error := by
  rw [Expression.ofConstruct, h]

theorem ofNamespace_of_error {error : ConstructionError} (h : ofExpression e = .error error) :
    Statement.ofNamespace keyword e body endToken = .error error := by
  rw [Statement.ofNamespace, h]

/-- With a dotted name, nothing but the number of arguments can be wrong. -/
theorem ofConstruct_ne_error (h : ofExpression e = .ok n) (range : Range) :
    Expression.ofConstruct keyword e opening arguments closing ≠ .error (.notDottedName range) := by
  rw [Expression.ofConstruct, h]
  simp only [Expression.checkArguments]
  split <;> simp

theorem ofNamespace_of_ok (h : ofExpression e = .ok n) :
    Statement.ofNamespace keyword e body endToken =
      .ok (.namespaceBlock keyword n body endToken) := by
  rw [Statement.ofNamespace, h]

/-- Exactly the identifiers under any number of dotted accesses are dotted names. Every other
expression is refused with its range, also as the name of a class, whatever the arguments, and as
that of a namespace, whatever the body. A dotted name has one part more than there are accesses: the
identifier, and behind it the accessed names as they are written, so that the outermost is the last.
It stands for the expression that it was read from, and if its parts have no dots, they are found
again between the dots of its text. -/
theorem ofExpression_reads_chains (e : Expression) :
    ((∃ n, ofExpression e = .ok n) ↔ ∃ root links, e.IsChain root links) ∧
    ((∀ root links, ¬ e.IsChain root links) →
      ofExpression e = .error (.notDottedName e.range) ∧
      (∀ keyword opening arguments closing,
        Expression.ofConstruct keyword e opening arguments closing =
          .error (.notDottedName e.range)) ∧
      ∀ keyword body endToken,
        Statement.ofNamespace keyword e body endToken = .error (.notDottedName e.range)) ∧
    ∀ root links, e.IsChain root links → ∃ n, ofExpression e = .ok n ∧
      (n.toExpression = e ∧ n.tokens.length = links.length + 1 ∧
        n.tokens = root :: links.map Link.name) ∧
      ((∀ name, e = .identifier name → n.last = name.text) ∧
        ∀ object dot name, e = .member object dot name → n.last = name.text) ∧
      ((∀ token ∈ n.tokens, '.' ∉ token.text.toList) →
        (n.text .dotted).toList.splitOn '.' = n.parts.map String.toList) ∧
      (∀ keyword opening arguments closing range,
        Expression.ofConstruct keyword e opening arguments closing ≠
          .error (.notDottedName range)) ∧
      ∀ keyword body endToken, Statement.ofNamespace keyword e body endToken =
        .ok (.namespaceBlock keyword n body endToken) := by
  refine ⟨?_, ?_, ?_⟩
  · constructor
    · rintro ⟨n, hn⟩
      exact ⟨n.root, n.links, ofExpression_eq_ok_iff.mp hn⟩
    · rintro ⟨root, links, hchain⟩
      exact ⟨⟨root, links⟩, ofExpression_eq_ok_iff.mpr hchain⟩
  · intro hnone
    have herror := ofExpression_of_not_isChain hnone
    exact ⟨herror, fun _ _ _ _ => ofConstruct_of_error herror,
      fun _ _ _ => ofNamespace_of_error herror⟩
  · intro root links hchain
    have hn : ofExpression e = .ok ⟨root, links⟩ := ofExpression_eq_ok_iff.mpr hchain
    refine ⟨⟨root, links⟩, hn, ⟨toExpression_of_isChain hchain, length_tokens _, rfl⟩, ⟨?_, ?_⟩,
      splitOn_text_dotted, fun _ _ _ _ => ofConstruct_ne_error hn,
      fun _ _ _ => ofNamespace_of_ok hn⟩
    · rintro name rfl
      cases hchain
      exact last_nil _
    · rintro object dot name rfl
      cases hchain
      exact last_concat _ _ _

/-- In `f().b` the names do not start from an identifier. -/
example (f opening closing dot b : Token) :
    ofExpression (.member (.call (.identifier f) opening [] closing) dot b) =
      .error (.notDottedName ((f.range.coverList [opening.range, closing.range]).cover b.range)) :=
  rfl

end DottedName

end Downlevel
