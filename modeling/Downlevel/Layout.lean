import Downlevel.Piece
import Downlevel.Text.Quoted

/-!
# Layout of sequences

Blocks, bodies and bracketed literals write a sequence of items and put every item on a line of its
own. A comment is the exception: it stays behind the item before it if it stood there in the
source. The four kinds of sequences differ in what they look at to find that out, and in which
line breaks they write.

The items of a sequence come with their pieces, so nothing here looks into a tree.
-/

namespace Downlevel

/-- What an item is to its neighbours. -/
inductive Role where
  | code
  | comment
  /-- The declaration of a function. -/
  | declaration
  deriving DecidableEq, Inhabited

/-- An item of a sequence: where it stands in the source, and what is emitted for it. -/
structure Item where
  range : Range
  role : Role
  pieces : List Piece
  deriving DecidableEq, Inhabited

namespace Item

/-- The item is a comment. -/
def isComment (i : Item) : Bool := i.role == .comment

/-- The item declares a function. -/
def isDeclaration (i : Item) : Bool := i.role == .declaration

end Item

namespace Layout

open Piece (newLine nested)

/-! ## Statements -/

/-- The statements of a block behind the statement at `previous?`. A comment is joined to the
statement before it, or to the line on which the owner of the block opens. -/
def blockItems (ownerLine? : Option Nat) : (previous? : Option Range) → List Item → List Piece
  | _, [] => []
  | previous?, item :: rest =>
    let joins := item.isComment &&
      (previous?.any item.range.touches || ownerLine?.any item.range.meetsLine)
    (if joins then [.text " "] else newLine) ++ item.pieces ++
      blockItems ownerLine? (some item.range) rest

/-- A block, one level below its owner. -/
def block (ownerLine? : Option Nat) (items : List Item) : List Piece :=
  nested (blockItems ownerLine? none items)

/-- A block and the line break before the keyword behind it. -/
def branch (block : List Piece) : List Piece :=
  block ++ [if block.isEmpty then .emptyBlockBreak else .lineBreak]

/-- What stands before a statement of a body that is not the first. A declaration has a blank line
before it; if it has a comment before it, the blank line is before the comment. -/
def separator (previous item : Item) (next? : Option Item) : List Piece :=
  if item.isComment && previous.range.stop.line == item.range.start.line then [.text " "]
  else if (item.isComment && next?.any Item.isDeclaration) ||
      (item.isDeclaration && !previous.isComment) then .lineBreak :: newLine
  else newLine

/-- The statements of a body behind `previous`. -/
def bodyItems (previous : Item) : List Item → List Piece
  | [] => []
  | item :: rest => separator previous item rest.head? ++ item.pieces ++ bodyItems item rest

/-- The statements of a file or of a namespace, at the level of their surroundings. -/
def body : List Item → List Piece
  | [] => []
  | item :: rest => item.pieces ++ bodyItems item rest

/-! ## Bracketed literals -/

/-- A comma stands behind a value if another value follows, whatever comments are between. -/
def comma (item : Item) (rest : List Item) : List Piece :=
  if !item.isComment && rest.any (!·.isComment) then [.text ","] else []

/-- A comment stays on the line of the range before it. -/
def joins (previous : Range) (item : Item) : Bool := item.isComment && previous.touches item.range

/-- The elements of an array behind `previous`: each begins with what separates it from the one
before it. -/
def arrayItems (previous : Range) : List Item → List Piece
  | [] => []
  | item :: rest =>
    (if joins previous item then [.text " "] else newLine) ++ item.pieces ++ comma item rest ++
      arrayItems item.range rest

/-- An array literal. -/
def array (opening : Token) (items : List Item) (closing : Token) : List Piece :=
  opening.piece :: nested (arrayItems opening.range items) ++
    (if items.isEmpty then [] else newLine) ++ [closing.piece]

/-- The members of a record behind `previous`: each ends with the line break behind it, unless a
comment follows on its line. -/
def recordItems (previous : Range) : List Item → List Piece
  | [] => []
  | item :: rest =>
    (if joins previous item then [.text " "] else [.indent 0]) ++ item.pieces ++
      comma item rest ++ (if rest.head?.any (joins item.range) then [] else [.lineBreak]) ++
      recordItems item.range rest

/-- A record literal. -/
def record (opening : Token) (items : List Item) (closing : Token) : List Piece :=
  opening.piece ::
    (if items.isEmpty || items.head?.any (joins opening.range) then [] else [.lineBreak]) ++
    nested (recordItems opening.range items) ++
    (if items.isEmpty then [] else [.indent 0]) ++ [closing.piece]

/-! ## Template strings -/

/-- The operands for a text of a template string: a literal for every line that is not empty, and
`chr(10)` for every line break. -/
def textOperands (position : Position) : (lines : List String) → List (List Piece)
  | [] => []
  | [line] => literal line
  | line :: next :: rest =>
    literal line ++ [.text "chr(10)"] :: textOperands position (next :: rest)
where
  /-- The literal of a line, if there is anything in it. -/
  literal (line : String) : List (List Piece) :=
    if line.isEmpty then [] else [[.written position (Text.quote line)]]

/-- The concatenation of the operands of a template string. A single operand stands for itself, and
without operands there is the empty string. -/
def concatenation (opening : Token) : (operands : List (List Piece)) → List Piece
  | [] => [.written opening.start (Text.quote "")]
  | [operand] => operand
  | operands => .text "(" :: Piece.separated " + " operands ++ [.text ")"]

end Layout

end Downlevel
