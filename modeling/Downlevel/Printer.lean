import Downlevel.Assembly
import Downlevel.State

/-!
# Files

Emission of a whole file: its code, the source map if the options ask for one, and the helpers
that the code calls.
-/

namespace Downlevel

/-- What is produced for a file. -/
structure Output where
  code : String
  sourceMap : Option SourceMap
  helpers : HelperSet
  deriving DecidableEq, Inhabited

/-- How files are emitted. -/
structure Printer where
  options : Options
  resolver : Resolver := Resolver.none

namespace Printer

/-- The output for a body that was read from the file `source` and goes to the file `output`. -/
def print (p : Printer) (body : Body) (source output : String) : Output :=
  let (fragments, after) := State.emit ⟨p.options, p.resolver, source, 0, [], {}⟩ (.body body)
  if p.options.sourceMap then
    let (code, map) := Fragment.assemble fragments output p.options.sourceRoot
    ⟨code, some map, after.helpers⟩
  else ⟨Fragment.code fragments, none, after.helpers⟩

/-- The fragments of a file. -/
def fragments (p : Printer) (body : Body) (source : String) : List Fragment :=
  (State.emit ⟨p.options, p.resolver, source, 0, [], {}⟩ (.body body)).1

/-- Code, source map and helpers of a file, one by one. -/
theorem print_eq (p : Printer) (body : Body) (source output : String) :
    p.print body source output =
      { code := Fragment.code (p.fragments body source)
        sourceMap := if p.options.sourceMap then
            some (Fragment.assemble (p.fragments body source) output p.options.sourceRoot).2
          else none
        helpers :=
          (State.emit ⟨p.options, p.resolver, source, 0, [], {}⟩ (.body body)).2.helpers } := by
  rw [print, State.emit]
  cases p.options.sourceMap <;> rfl

end Printer

/-- The code for a body, without namespaces and without a source map. -/
def Body.toCode (body : Body) (options : Options) : String :=
  (Printer.print ⟨{ options with sourceMap := false }, Resolver.none⟩ body "" "").code

end Downlevel
