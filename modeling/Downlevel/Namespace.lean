import Downlevel.Text.CaseFold
import Downlevel.Tree.DottedName

/-!
# Namespaces

Whether a dotted name refers to a namespace is not decided here: a *resolver* answers two
questions, and its answers are taken as they are. A *namespace table* is the resolver that
knows what has been registered with it; it compares names without regard to case.
-/

namespace Downlevel

/-- What can be asked about names. -/
structure Resolver where
  /-- Whether the dotted name with the given parts, root first, starts with a namespace. -/
  startsWithNamespace : List String → Bool
  /-- Whether the name is a function of a namespace, seen from inside the given namespace. -/
  isNamespaceFunction : String → Option String → Bool

namespace Resolver

/-- The resolver that knows no namespaces. -/
def none : Resolver := ⟨fun _ => false, fun _ _ => false⟩

end Resolver

/-! ## Tables -/

/-- What has been registered, in lower case and each name once. -/
structure NamespaceTable where
  /-- The registered namespaces and those that they lie in. -/
  namespaces : List String := []
  /-- The registered functions, with the names of their namespaces. -/
  functions : List String := []
  deriving DecidableEq, Inhabited

namespace NamespaceTable

/-- The paths that lead to the last part through all parts before it. A part behind an empty path
starts a path anew. -/
def paths : (path : List Char) → (parts : List (List Char)) → List String
  | _, [] => []
  | path, part :: parts =>
    let longer := if path.isEmpty then part else path ++ '.' :: part
    String.ofList longer :: paths longer parts

/-- A namespace and those that it lies in, in lower case. -/
def closure (name : String) : List String :=
  paths [] (Text.splitAt '.' (Text.foldCase name).toList)

/-- Registers a namespace and those that it lies in. -/
def addNamespace (t : NamespaceTable) (name : String) : NamespaceTable :=
  { t with namespaces := (closure name).foldl (fun known path => known.insert path) t.namespaces }

/-- A function's name together with its namespace, in lower case. -/
def qualified (enclosing name : String) : String := Text.foldCase (enclosing ++ "." ++ name)

/-- Registers a function, and its namespace as well. -/
def addFunction (t : NamespaceTable) (enclosing name : String) : NamespaceTable :=
  let t := t.addNamespace enclosing
  { t with functions := t.functions.insert (qualified enclosing name) }

/-- The name is that of a registered namespace. -/
def isNamespace (t : NamespaceTable) (name : String) : Bool :=
  t.namespaces.contains (Text.foldCase name)

/-- How many namespaces are registered. -/
def namespaceCount (t : NamespaceTable) : Nat := t.namespaces.length

/-- The root of the dotted name with the given parts is a registered namespace. -/
def startsWithNamespace (t : NamespaceTable) : List String → Bool
  | [] => false
  | root :: _ => t.isNamespace root

/-- The name, within the given namespace, is that of a registered function. -/
def isNamespaceFunction (t : NamespaceTable) (name : String) : (enclosing : Option String) → Bool
  | some enclosing => t.functions.contains (qualified enclosing name)
  | none => t.functions.contains (Text.foldCase name)

/-- The resolver that answers from the table. -/
def resolver (t : NamespaceTable) : Resolver := ⟨t.startsWithNamespace, t.isNamespaceFunction⟩

end NamespaceTable

end Downlevel
