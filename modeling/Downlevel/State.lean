import Downlevel.Emit

/-!
# Emission states

A state is where emission has got to in a file: how deep it is, which nodes it is inside of, and
which helpers it has called so far. Emitting a tree only adds to the helpers; depth and ancestors
are for the caller to change, and they are restored when a scoped change ends.
-/

namespace Downlevel

/-- Whatever can be emitted by itself. -/
inductive Tree where
  | body (body : Body)
  | block (block : Block)
  | statement (statement : Statement)
  | expression (expression : Expression)

namespace Tree

/-- The pieces of a tree. The line on which the owner opens only matters to a block. -/
def emit (scope : Scope) (ownerLine? : Option Nat) : Tree → List Piece
  | body b => Body.emit scope b
  | block b => b.emit scope ownerLine?
  | statement s => s.emit scope
  | expression e => e.emit scope

end Tree

/-- A node that emission is inside of. -/
inductive Ancestor where
  | node (range : Range)
  | namespaceBlock (range : Range) (name : DottedName)
  deriving DecidableEq, Inhabited

namespace Ancestor

/-- The range of the node. -/
def range : Ancestor → Range
  | node range => range
  | namespaceBlock range _ => range

/-- The name of the node, if it is a namespace. -/
def namespaceName? : Ancestor → Option DottedName
  | node _ => none
  | namespaceBlock _ name => some name

end Ancestor

/-- Where emission has got to in a file. -/
structure State where
  options : Options
  resolver : Resolver
  /-- The path of the source file. -/
  source : String
  depth : Nat := 0
  /-- The nodes that emission is inside of, innermost first. -/
  ancestors : List Ancestor := []
  /-- The helpers that have been called. -/
  helpers : HelperSet := {}

namespace State

/-- The innermost node. -/
def parent? (s : State) : Option Ancestor := s.ancestors.head?

/-- The name of the innermost namespace. -/
def enclosingNamespace? (s : State) : Option DottedName :=
  s.ancestors.findSome? Ancestor.namespaceName?

/-- The name of the innermost namespace, spelled out. -/
def enclosingName? (s : State) (style : NameStyle) : Option String :=
  s.enclosingNamespace?.map (·.text style)

/-- What emission has to know about the surroundings. -/
def scope (s : State) : Scope := ⟨s.resolver, s.enclosingNamespace?.map DottedName.parts⟩

/-! ## Changes of the surroundings -/

/-- Runs an action one level deeper, and comes up by one level behind it. -/
def withBlock {α : Type} (s : State) (action : State → α × State) : α × State :=
  let (result, after) := action { s with depth := s.depth + 1 }
  (result, { after with depth := after.depth - 1 })

/-- Runs an action inside a node. Behind it as many nodes are left as there were before. -/
def withAncestor {α : Type} (s : State) (ancestor : Ancestor) (action : State → α × State) :
    α × State :=
  let (result, after) := action { s with ancestors := ancestor :: s.ancestors }
  let entered := after.ancestors.length - s.ancestors.length
  (result, { after with ancestors := after.ancestors.drop entered })

/-! ## Emission -/

/-- The fragments of pieces at the depth of the state. -/
def render (s : State) (pieces : List Piece) : List Fragment :=
  Piece.renderAll s.options s.source s.depth pieces

/-- Records a call of a helper. -/
def noteHelper (s : State) (helper : Helper) : State :=
  { s with helpers := s.helpers.insert helper }

/-- The name by which a helper is called. -/
def helperName (s : State) (helper : Helper) : String := helper.callName s.options.helperPrefix

/-- The pieces of a tree in its surroundings. -/
def pieces (s : State) (tree : Tree) : List Piece :=
  tree.emit s.scope (s.parent?.map (·.range.start.line))

/-- The fragments of a tree, and the state that has recorded the helpers they call. -/
def emit (s : State) (tree : Tree) : List Fragment × State :=
  let pieces := s.pieces tree
  (s.render pieces, { s with helpers := s.helpers.insertList (Piece.helpers pieces) })

end State

end Downlevel
