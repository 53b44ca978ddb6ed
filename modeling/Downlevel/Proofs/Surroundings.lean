import Downlevel.Proofs.Walking

/-!
# What the surroundings decide

A walk looks up in its state what it has to know: the depth, the node that it is in, the innermost
namespace. What it writes depends on less. Each construct enters itself before its walk comes to a
block, so the nodes around the tree are not asked for anything but the parts of the innermost
namespace's name, and the depth only moves indentations.

Main statement: two walks through one tree, in states with the same options and the same parts of
that name, write the same fragments, except that indentations differ by as many units as the depths
do (`State.walk_alike`).
-/

namespace Downlevel

/-! ## Measured fragments -/

/-- A fragment and, if it is an indentation, how many units it has. -/
structure Measured where
  fragment : Fragment
  units? : Option Nat
  deriving DecidableEq

namespace Measured

/-- An indentation of some units. -/
def indentation (unit : String) (units : Nat) : Measured :=
  ⟨.plain (Piece.indentation unit units), some units⟩

/-- The same fragment at two depths: an indentation is as many levels below the one depth as below
the other, and anything else is the same. -/
inductive Agrees (unit : String) (depth depth' : Nat) : Measured → Measured → Prop
  | same (f : Fragment) : Agrees unit depth depth' ⟨f, none⟩ ⟨f, none⟩
  | indented (levels : Nat) : Agrees unit depth depth' (indentation unit (levels + depth))
      (indentation unit (levels + depth'))

end Measured

/-- How many units the piece has, if it is an indentation. -/
def Piece.units? : Piece → Option Nat
  | indent levels => some levels
  | _ => none

namespace State

/-- The fragments of the pieces; each indentation is marked with its units. -/
def measured (s : State) (pieces : List Piece) : List Measured :=
  pieces.flatMap fun piece => (s.render [piece]).map (⟨·, (piece.shift s.depth).units?⟩)

theorem map_fragment_measured (s : State) (pieces : List Piece) :
    (s.measured pieces).map Measured.fragment = s.render pieces := by
  simp [measured, render, Piece.renderAll, List.map_flatMap, Function.comp_def]

/-! ## Two states -/

/-- The states differ at most in their depths, in the helpers recorded so far and in the nodes
around the tree; the names of the innermost namespaces have the same parts. -/
structure Alike (s t : State) : Prop where
  options : t.options = s.options
  resolver : t.resolver = s.resolver
  source : t.source = s.source
  enclosing : t.enclosingNamespace?.map DottedName.parts =
    s.enclosingNamespace?.map DottedName.parts

variable {s t : State}

theorem Alike.scope (h : s.Alike t) : t.scope = s.scope := by
  rw [State.scope, State.scope, h.resolver, h.enclosing]

/-- Only a block asks for the node around it. -/
theorem Alike.pieces {tree : Tree} (h : s.Alike t)
    (howner : ∀ b, tree = .block b →
      t.parent?.map (·.range.start.line) = s.parent?.map (·.range.start.line)) :
    t.pieces tree = s.pieces tree := by
  rw [State.pieces, State.pieces, h.scope]
  cases tree with
  | block b => rw [howner b rfl]
  | body | statement | expression => rfl

theorem Alike.measured_piece (h : s.Alike t) (piece : Piece) :
    List.Forall₂ (Measured.Agrees s.options.indentUnit s.depth t.depth) (s.measured [piece])
      (t.measured [piece]) := by
  obtain ⟨options, resolver, source, depth, ancestors, helpers⟩ := s
  obtain ⟨options', resolver', source', depth', ancestors', helpers'⟩ := t
  obtain ⟨rfl, rfl, rfl, -⟩ := h
  cases piece with
  -- No other piece looks at the depth.
  | indent levels => exact .cons (.indented levels) .nil
  | emptyBlockBreak =>
    cases hbreak : options'.newlineBeforeEmptyBlockEnd with
    | false => simp [State.measured, render, Piece.renderAll, Piece.shift, Piece.render, hbreak]
    | true =>
      simp [State.measured, render, Piece.renderAll, Piece.shift, Piece.render, Piece.units?,
        hbreak]
      exact .same _
  | _ => exact .cons (.same _) .nil

theorem Alike.measured (h : s.Alike t) (pieces : List Piece) :
    List.Forall₂ (Measured.Agrees s.options.indentUnit s.depth t.depth) (s.measured pieces)
      (t.measured pieces) := by
  induction pieces with
  | nil => exact .nil
  | cons piece rest ih =>
    have happend (u : State) :
        u.measured (piece :: rest) = u.measured [piece] ++ u.measured rest := by
      simp [State.measured]
    rw [happend, happend]
    exact List.rel_append (h.measured_piece piece) ih

/-- Emission depends on its surroundings only through the name of the innermost namespace and the
depth. In states that are alike, the walks through a tree write equally many fragments, and at each
place the same, up to indentations, which differ by the difference of the depths. The nodes around a
statement, an expression or a body do not matter otherwise, and for a block it is enough that they
open on the same line. -/
theorem walk_alike (h : s.Alike t) (tree : Tree)
    (howner : ∀ b, tree = .block b →
      t.parent?.map (·.range.start.line) = s.parent?.map (·.range.start.line)) :
    let fragments := s.measured (s.pieces tree)
    let fragments' := t.measured (t.pieces tree)
    (tree.walk s).1 = fragments.map Measured.fragment ∧
    (tree.walk t).1 = fragments'.map Measured.fragment ∧
    (tree.walk s).1.length = (tree.walk t).1.length ∧
    List.Forall₂ (Measured.Agrees s.options.indentUnit s.depth t.depth) fragments fragments' := by
  intro fragments fragments'
  have hfragments : (tree.walk s).1 = fragments.map Measured.fragment := by
    rw [tree.walk_eq_emit, map_fragment_measured]
    rfl
  have hfragments' : (tree.walk t).1 = fragments'.map Measured.fragment := by
    rw [tree.walk_eq_emit, map_fragment_measured]
    rfl
  have hagree : List.Forall₂ (Measured.Agrees s.options.indentUnit s.depth t.depth) fragments
      fragments' := by
    rw [show fragments' = t.measured (s.pieces tree) from congrArg t.measured (h.pieces howner)]
    exact h.measured (s.pieces tree)
  refine ⟨hfragments, hfragments', ?_, hagree⟩
  rw [hfragments, hfragments', List.length_map, List.length_map, hagree.length_eq]

/-- A loop in a namespace of which `g` is a function, at the top of a file and two levels deep. -/
theorem walk_alike_namespace :
    let token (text : String) : Token := { (default : Token) with text }
    let name (line : Nat) : DottedName := ⟨.ofStart .identifier "A" ⟨line, 10⟩, []⟩
    let resolver := (NamespaceTable.addFunction {} "A" "g").resolver
    let s : State := ⟨{}, resolver, "f", 0, [.namespaceBlock default (name 0)], {}⟩
    let t : State := ⟨{}, resolver, "f", 2,
      [.node default, .namespaceBlock default (name 7), .namespaceBlock default ⟨token "B", []⟩],
      { toText := true }⟩
    let call : Expression := .call (.identifier (token "g")) (token "(") [] (token ")")
    let choice : Expression :=
      .conditional (.identifier (token "c")) (token "?") call (token ":") (.literal (token "0"))
    let tree : Tree :=
      .statement (.whileLoop (token "while") choice ⟨default, []⟩ (token "end while"))
    s.Alike t ∧ (∀ b, tree ≠ .block b) ∧
      List.Forall₂ (Measured.Agrees "    " 0 2) (s.measured (s.pieces tree))
        (t.measured (t.pieces tree)) ∧
      (tree.walk s).1 ≠ (tree.walk t).1 := by
  intro token name resolver s t call choice tree
  have halike : s.Alike t := ⟨rfl, rfl, rfl, rfl⟩
  have hblock : ∀ b, tree ≠ .block b := nofun
  obtain ⟨-, -, -, hagree⟩ := walk_alike halike tree fun b hb => absurd hb (hblock b)
  exact ⟨halike, hblock, hagree, by decide⟩

end State

end Downlevel
