import Downlevel.Tree.Range

/-!
# Checked construction

Most nodes can be built from any parts. A call must not have more arguments than the runtime
accepts, and the name of a class or of a namespace must be a dotted name. The functions here build
these nodes and say why they refuse.
-/

namespace Downlevel

namespace DottedName

/-- The dotted name that an expression is, or the error that it is none. -/
def ofExpression (e : Expression) : Except ConstructionError DottedName :=
  match ofExpression? e with
  | some name => .ok name
  | none => .error (.notDottedName e.range)

end DottedName

namespace Expression

/-- Refuses a node with too many arguments. -/
def checkArguments (arguments : List Expression) (node : Expression) :
    Except ConstructionError Expression :=
  if arguments.length ≤ maxArguments then .ok node
  else .error (.tooManyArguments arguments.length node.range)

/-- A call, if it does not have too many arguments. -/
def ofCall (callee : Expression) (opening : Token) (arguments : List Expression)
    (closing : Token) : Except ConstructionError Expression :=
  checkArguments arguments (.call callee opening arguments closing)

/-- A constructor call, if its class is a dotted name and it does not have too many arguments. -/
def ofConstruct (keyword : Token) (className : Expression) (opening : Token)
    (arguments : List Expression) (closing : Token) : Except ConstructionError Expression :=
  match DottedName.ofExpression className with
  | .error e => .error e
  | .ok className =>
    checkArguments arguments (.construct keyword className opening arguments closing)

end Expression

namespace Statement

/-- A namespace, if its name is a dotted name. -/
def ofNamespace (keyword : Token) (name : Expression) (body : Body) (endToken : Token) :
    Except ConstructionError Statement :=
  match DottedName.ofExpression name with
  | .error e => .error e
  | .ok name => .ok (.namespaceBlock keyword name body endToken)

end Statement

/-! ## Replacing parts of a function -/

namespace FunctionLiteral

/-- The function with another body, and the body it had. -/
def replaceBody (f : FunctionLiteral) (body : Block) : FunctionLiteral × Block :=
  ({ f with body }, f.body)

/-- The function with another closing keyword, and the one it had. -/
def replaceEnd (f : FunctionLiteral) (endToken : Token) : FunctionLiteral × Token :=
  ({ f with endToken }, f.endToken)

end FunctionLiteral

end Downlevel
