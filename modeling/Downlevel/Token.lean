import Downlevel.Position

/-!
# Tokens

A token is a piece of source text with its kind and its range. Tokens come from a lexer; here they
are the leaves of trees. Their text is the authoritative spelling, and their range is what
a source map points back to.
-/

namespace Downlevel

/-- The kinds of tokens. -/
inductive TokenKind where
  -- identifiers, literals and comments
  | identifier | stringLiteral | templateText | integerLiteral | longIntegerLiteral | floatLiteral
  | doubleLiteral | hexLiteral | trueLiteral | falseLiteral | invalidLiteral | comment
  -- keywords
  | ifKeyword | thenKeyword | elseIfKeyword | elseKeyword | endIfKeyword | forKeyword
  | forEachKeyword | toKeyword | stepKeyword | inKeyword | endForKeyword | whileKeyword
  | endWhileKeyword | exitForKeyword | exitWhileKeyword | functionKeyword | subKeyword
  | endFunctionKeyword | endSubKeyword | asKeyword | returnKeyword | printKeyword | gotoKeyword
  | endKeyword | stopKeyword | libraryKeyword | namespaceKeyword | endNamespaceKeyword
  | importKeyword | newKeyword | tryKeyword | catchKeyword | endTryKeyword | throwKeyword
  | notKeyword | andKeyword | orKeyword | modKeyword
  -- punctuation and operators
  | dot | callfunc | atSign | comma | colon | semicolon | question | questionQuestion | leftParen
  | rightParen | leftSquare | rightSquare | leftCurly | rightCurly | backTick | equal | lessGreater
  | less | lessEqual | greater | greaterEqual | plus | minus | star | slash | backslash | caret
  | leftShift | rightShift | plusEqual | minusEqual | starEqual | slashEqual | backslashEqual
  | leftShiftEqual | rightShiftEqual | plusPlus | minusMinus
  deriving DecidableEq, Inhabited

namespace TokenKind

/-- All kinds, in the order of their declaration. -/
def all : List TokenKind :=
  [.identifier, .stringLiteral, .templateText, .integerLiteral, .longIntegerLiteral, .floatLiteral,
   .doubleLiteral, .hexLiteral, .trueLiteral, .falseLiteral, .invalidLiteral, .comment, .ifKeyword,
   .thenKeyword, .elseIfKeyword, .elseKeyword, .endIfKeyword, .forKeyword, .forEachKeyword,
   .toKeyword, .stepKeyword, .inKeyword, .endForKeyword, .whileKeyword, .endWhileKeyword,
   .exitForKeyword, .exitWhileKeyword, .functionKeyword, .subKeyword, .endFunctionKeyword,
   .endSubKeyword, .asKeyword, .returnKeyword, .printKeyword, .gotoKeyword, .endKeyword,
   .stopKeyword, .libraryKeyword, .namespaceKeyword, .endNamespaceKeyword, .importKeyword,
   .newKeyword, .tryKeyword, .catchKeyword, .endTryKeyword, .throwKeyword, .notKeyword, .andKeyword,
   .orKeyword, .modKeyword, .dot, .callfunc, .atSign, .comma, .colon, .semicolon, .question,
   .questionQuestion, .leftParen, .rightParen, .leftSquare, .rightSquare, .leftCurly, .rightCurly,
   .backTick, .equal, .lessGreater, .less, .lessEqual, .greater, .greaterEqual, .plus, .minus,
   .star, .slash, .backslash, .caret, .leftShift, .rightShift, .plusEqual, .minusEqual, .starEqual,
   .slashEqual, .backslashEqual, .leftShiftEqual, .rightShiftEqual, .plusPlus, .minusMinus]

/-- The name under which a kind is written down. -/
def name : TokenKind → String
  | .identifier => "Identifier"
  | .stringLiteral => "StringLiteral"
  | .templateText => "TemplateStringQuasi"
  | .integerLiteral => "IntegerLiteral"
  | .longIntegerLiteral => "LongIntegerLiteral"
  | .floatLiteral => "FloatLiteral"
  | .doubleLiteral => "DoubleLiteral"
  | .hexLiteral => "HexLiteral"
  | .trueLiteral => "True"
  | .falseLiteral => "False"
  | .invalidLiteral => "Invalid"
  | .comment => "Comment"
  | .ifKeyword => "If"
  | .thenKeyword => "Then"
  | .elseIfKeyword => "ElseIf"
  | .elseKeyword => "Else"
  | .endIfKeyword => "EndIf"
  | .forKeyword => "For"
  | .forEachKeyword => "ForEach"
  | .toKeyword => "To"
  | .stepKeyword => "Step"
  | .inKeyword => "In"
  | .endForKeyword => "EndFor"
  | .whileKeyword => "While"
  | .endWhileKeyword => "EndWhile"
  | .exitForKeyword => "ExitFor"
  | .exitWhileKeyword => "ExitWhile"
  | .functionKeyword => "Function"
  | .subKeyword => "Sub"
  | .endFunctionKeyword => "EndFunction"
  | .endSubKeyword => "EndSub"
  | .asKeyword => "As"
  | .returnKeyword => "Return"
  | .printKeyword => "Print"
  | .gotoKeyword => "Goto"
  | .endKeyword => "End"
  | .stopKeyword => "Stop"
  | .libraryKeyword => "Library"
  | .namespaceKeyword => "Namespace"
  | .endNamespaceKeyword => "EndNamespace"
  | .importKeyword => "Import"
  | .newKeyword => "New"
  | .tryKeyword => "Try"
  | .catchKeyword => "Catch"
  | .endTryKeyword => "EndTry"
  | .throwKeyword => "Throw"
  | .notKeyword => "Not"
  | .andKeyword => "And"
  | .orKeyword => "Or"
  | .modKeyword => "Mod"
  | .dot => "Dot"
  | .callfunc => "Callfunc"
  | .atSign => "At"
  | .comma => "Comma"
  | .colon => "Colon"
  | .semicolon => "Semicolon"
  | .question => "Question"
  | .questionQuestion => "QuestionQuestion"
  | .leftParen => "LeftParen"
  | .rightParen => "RightParen"
  | .leftSquare => "LeftSquare"
  | .rightSquare => "RightSquare"
  | .leftCurly => "LeftCurly"
  | .rightCurly => "RightCurly"
  | .backTick => "BackTick"
  | .equal => "Equal"
  | .lessGreater => "LessGreater"
  | .less => "Less"
  | .lessEqual => "LessEqual"
  | .greater => "Greater"
  | .greaterEqual => "GreaterEqual"
  | .plus => "Plus"
  | .minus => "Minus"
  | .star => "Star"
  | .slash => "Slash"
  | .backslash => "Backslash"
  | .caret => "Caret"
  | .leftShift => "LeftShift"
  | .rightShift => "RightShift"
  | .plusEqual => "PlusEqual"
  | .minusEqual => "MinusEqual"
  | .starEqual => "StarEqual"
  | .slashEqual => "SlashEqual"
  | .backslashEqual => "BackslashEqual"
  | .leftShiftEqual => "LeftShiftEqual"
  | .rightShiftEqual => "RightShiftEqual"
  | .plusPlus => "PlusPlus"
  | .minusMinus => "MinusMinus"

/-- The kind with the given name. -/
def ofName? (s : String) : Option TokenKind := all.find? fun kind => kind.name == s

/-- Tokens of these kinds are values by themselves. -/
def isLiteral : TokenKind → Bool
  | .stringLiteral | .templateText | .integerLiteral | .longIntegerLiteral | .floatLiteral
  | .doubleLiteral | .hexLiteral | .trueLiteral | .falseLiteral | .invalidLiteral => true
  | _ => false

theorem mem_all (kind : TokenKind) : kind ∈ all := by
  cases kind <;> decide

end TokenKind

/-- A piece of source text. -/
structure Token where
  kind : TokenKind
  text : String
  range : Range
  deriving DecidableEq, Inhabited

namespace Token

/-- The token on a single line that starts at `p` and is as wide as its text has characters. -/
def ofStart (kind : TokenKind) (text : String) (p : Position) : Token :=
  ⟨kind, text, p, ⟨p.line, p.column + text.length⟩⟩

/-- Where the token starts. -/
def start (t : Token) : Position := t.range.start

end Token

end Downlevel
