import Downlevel.Fragment
import Downlevel.Helper
import Downlevel.Options
import Downlevel.Token

/-!
# Pieces

Emission produces pieces, which say what is written without saying how the caller's options write
it: a line break is a piece, whatever its characters are. Rendering turns pieces into fragments.

Indentation is relative: `indent n` stands `n` levels below the place where emission began, and
`nested` moves pieces one level down. So what is emitted for a node does not depend on how deep the
node lies.
-/

namespace Downlevel

/-- Something to be written. -/
inductive Piece where
  /-- Code with its source position. -/
  | written (position : Position) (text : String)
  /-- A line of a comment. -/
  | comment (position : Position) (text : String)
  /-- Code that is only written as a comment. -/
  | commentedOut (position : Position) (text : String)
  /-- The name of a helper, with the position of what it stands for. -/
  | helper (position : Position) (helper : Helper)
  /-- Text that no source position stands for. -/
  | text (text : String)
  | lineBreak
  /-- The line break behind an empty block, which is written only if the options say so. -/
  | emptyBlockBreak
  /-- The indentation of a line. -/
  | indent (levels : Nat)
  deriving DecidableEq, Inhabited

namespace Piece

/-- The piece some levels further down. -/
def shift (levels : Nat) : Piece → Piece
  | indent n => indent (n + levels)
  | piece => piece

/-- The pieces one level further down. -/
def nested (pieces : List Piece) : List Piece := pieces.map (shift 1)

/-- The pieces that start a line. -/
def newLine : List Piece := [lineBreak, indent 0]

/-- The pieces of each list, with `separator` between the lists. -/
def separated (separator : String) : List (List Piece) → List Piece
  | [] => []
  | [pieces] => pieces
  | pieces :: next :: rest => pieces ++ text separator :: separated separator (next :: rest)

/-- The helper whose name the piece writes. -/
def helper? : Piece → Option Helper
  | helper _ h => some h
  | _ => none

/-- The helpers whose names the pieces write. -/
def helpers (pieces : List Piece) : List Helper := pieces.filterMap helper?

/-! ## Rendering -/

/-- An indentation of some levels. -/
def indentation (unit : String) (levels : Nat) : String :=
  String.join (List.replicate levels unit)

/-- The fragments that write a piece. -/
def render (options : Options) (source : String) : Piece → List Fragment
  | written position s => [.mapped position source s]
  | comment position s => [.mapped position source s]
  | commentedOut position s => [.mapped position source s]
  | helper position h => [.mapped position source (h.callName options.helperPrefix)]
  | text s => [.plain s]
  | lineBreak => [.plain options.newLine.text]
  | emptyBlockBreak =>
    if options.newlineBeforeEmptyBlockEnd then [.plain options.newLine.text] else []
  | indent levels => [.plain (indentation options.indentUnit levels)]

/-- The fragments that write pieces at some depth. -/
def renderAll (options : Options) (source : String) (depth : Nat) (pieces : List Piece) :
    List Fragment :=
  pieces.flatMap fun piece => (piece.shift depth).render options source

end Piece

namespace Token

/-- The token as it was written. -/
def piece (t : Token) : Piece := .written t.start t.text

/-- The token as it was written, or else a text in its place. -/
def pieceOr (fallback : String) : Option Token → Piece
  | some t => t.piece
  | none => .text fallback

end Token

end Downlevel
