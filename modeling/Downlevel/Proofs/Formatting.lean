import Downlevel.Printer
import Mathlib.Data.List.Forall2

/-!
# Formatting

What the options say about layout does not reach the code: pieces are made without the options, and
an option only decides how a piece is rendered. So two runs can be compared piece by piece.

* Under options with one helper prefix, the fragments with a source position are the same
  (`State.filter_emit`).
* The kind of the line breaks changes nothing but the line breaks (`State.emit_newLine`), and no
  position in the code (`Fragment.addAllTo_congr`), hence not the source map.
* The texts of the fragments know neither of source maps nor of paths (`State.texts_emit`).

`Printer.print_formatting` says all this of whole files.
-/

namespace Downlevel

/-! ## Fragments that agree -/

namespace Fragment

/-- The fragment has a source position. -/
def isMapped : Fragment → Bool
  | plain _ => false
  | mapped _ _ _ => true

/-- The same fragment twice, or two line breaks of different kinds. -/
inductive AgreeUpToNewLine : Fragment → Fragment → Prop
  | same (f : Fragment) : AgreeUpToNewLine f f
  | lf_crlf : AgreeUpToNewLine (plain "\n") (plain "\r\n")
  | crlf_lf : AgreeUpToNewLine (plain "\r\n") (plain "\n")

theorem AgreeUpToNewLine.newLine (n n' : NewLine) :
    AgreeUpToNewLine (plain n.text) (plain n'.text) := by
  cases n with
  | lf =>
    cases n' with
    | lf => exact .same _
    | crlf => exact .lf_crlf
  | crlf =>
    cases n' with
    | lf => exact .crlf_lf
    | crlf => exact .same _

/-- A carriage return is the last character of its line, so the next line begins where it would
have begun without it. -/
theorem advance_crlf (p : Position) : Text.advance p "\r\n" = Text.advance p "\n" := rfl

variable {f f' : Fragment} {fs fs' : List Fragment}

theorem AgreeUpToNewLine.addTo (h : AgreeUpToNewLine f f') (g : SourceMap.Generator)
    (p : Position) : f.addTo g p = f'.addTo g p := by
  cases h <;> rfl

theorem AgreeUpToNewLine.advance (h : AgreeUpToNewLine f f') (p : Position) :
    Text.advance p f.text = Text.advance p f'.text := by
  cases h with
  | same => rfl
  | lf_crlf => exact (advance_crlf p).symm
  | crlf_lf => exact advance_crlf p

/-- Fragments that agree are mapped from the same places. -/
theorem addAllTo_congr (h : List.Forall₂ AgreeUpToNewLine fs fs') (g : SourceMap.Generator)
    (p : Position) : addAllTo g p fs = addAllTo g p fs' := by
  induction h generalizing g p with
  | nil => rfl
  | cons hfirst _ ih => rw [addAllTo, addAllTo, hfirst.addTo, hfirst.advance, ih]

/-- The source maps of fragments that agree are the same. -/
theorem map_assemble_congr (h : List.Forall₂ AgreeUpToNewLine fs fs') (file : String)
    (sourceRoot : Option String) :
    (assemble fs file sourceRoot).2 = (assemble fs' file sourceRoot).2 := by
  rw [assemble, assemble, addAllTo_congr h]

end Fragment

/-! ## One piece under two options -/

namespace Piece

/-- A mapped fragment knows of one option, which is the helper prefix. -/
theorem filter_render {o o' : Options} (h : o'.helperPrefix = o.helperPrefix) (source : String)
    (piece : Piece) : (piece.render o' source).filter Fragment.isMapped =
      (piece.render o source).filter Fragment.isMapped := by
  cases piece with
  | helper position called => rw [render, render, h]
  | emptyBlockBreak =>
    -- written or not, the line break is not mapped
    have hnone (o : Options) :
        (emptyBlockBreak.render o source).filter Fragment.isMapped = [] := by
      rw [render]
      split <;> rfl
    rw [hnone, hnone]
  | written | comment | commentedOut | text | lineBreak | indent => rfl

theorem render_newLine (options : Options) (newLine : NewLine) (source : String) (piece : Piece) :
    List.Forall₂ Fragment.AgreeUpToNewLine (piece.render options source)
      (piece.render { options with newLine } source) := by
  have hsame (f : Fragment) : List.Forall₂ Fragment.AgreeUpToNewLine [f] [f] :=
    .cons (.same f) .nil
  have hbreak : List.Forall₂ Fragment.AgreeUpToNewLine [.plain options.newLine.text]
      [.plain newLine.text] := .cons (.newLine _ _) .nil
  cases piece with
  | lineBreak => exact hbreak
  | emptyBlockBreak =>
    rw [render, render]
    split
    · exact hbreak
    · exact .nil
  | written | comment | commentedOut | helper | text | indent => exact hsame _

theorem texts_render (options : Options) (sourceMap : Bool) (sourceRoot : Option String)
    (source source' : String) (piece : Piece) :
    (piece.render { options with sourceMap, sourceRoot } source').map Fragment.text =
      (piece.render options source).map Fragment.text := by
  cases piece <;> rfl

end Piece

/-! ## One tree under two options -/

namespace State

variable (s : State) (tree : Tree)

theorem filter_emit {o : Options} (h : o.helperPrefix = s.options.helperPrefix) :
    (State.emit { s with options := o } tree).1.filter Fragment.isMapped =
      (s.emit tree).1.filter Fragment.isMapped := by
  show (Piece.renderAll o s.source s.depth (s.pieces tree)).filter Fragment.isMapped =
    (Piece.renderAll s.options s.source s.depth (s.pieces tree)).filter Fragment.isMapped
  rw [Piece.renderAll, Piece.renderAll, List.filter_flatMap, List.filter_flatMap]
  apply List.flatMap_congr
  intro piece _
  exact Piece.filter_render h s.source _

theorem emit_newLine (newLine : NewLine) :
    List.Forall₂ Fragment.AgreeUpToNewLine (s.emit tree).1
      (State.emit { s with options := { s.options with newLine } } tree).1 := by
  show List.Forall₂ _ (Piece.renderAll s.options s.source s.depth (s.pieces tree))
    (Piece.renderAll { s.options with newLine } s.source s.depth (s.pieces tree))
  generalize s.pieces tree = pieces
  induction pieces with
  | nil => exact .nil
  | cons piece rest ih =>
    exact List.rel_append (Piece.render_newLine s.options newLine s.source _) ih

theorem texts_emit (sourceMap : Bool) (sourceRoot : Option String) (source : String) :
    (State.emit
      { s with source, options := { s.options with sourceMap, sourceRoot } } tree).1.map
        Fragment.text =
      (s.emit tree).1.map Fragment.text := by
  show (Piece.renderAll _ source s.depth (s.pieces tree)).map Fragment.text =
    (Piece.renderAll s.options s.source s.depth (s.pieces tree)).map Fragment.text
  rw [Piece.renderAll, Piece.renderAll, List.map_flatMap, List.map_flatMap]
  apply List.flatMap_congr
  intro piece _
  exact Piece.texts_render s.options sourceMap sourceRoot s.source source _

end State

/-! ## Whole files -/

namespace Printer

/-- Formatting options are cosmetic. With the same helper prefix, the same code is written for the
same source positions, and the same helpers are called. Line breaks of another kind are all that
differs if only their kind is another, and the source map is the same. And the code of a file does
not depend on what source map is made, nor on the paths. -/
theorem print_formatting (p : Printer) (body : Body) (source output : String) :
    (∀ o : Options, o.helperPrefix = p.options.helperPrefix →
      let other : Printer := { p with options := o }
      (other.fragments body source).filter Fragment.isMapped =
        (p.fragments body source).filter Fragment.isMapped ∧
      (other.print body source output).helpers = (p.print body source output).helpers) ∧
    (∀ newLine : NewLine,
      let other : Printer := { p with options := { p.options with newLine } }
      (other.fragments body source).length = (p.fragments body source).length ∧
      List.Forall₂ Fragment.AgreeUpToNewLine (p.fragments body source)
        (other.fragments body source) ∧
      (other.print body source output).sourceMap = (p.print body source output).sourceMap) ∧
    ∀ (sourceMap : Bool) (sourceRoot : Option String) (source' output' : String),
      let other : Printer := { p with options := { p.options with sourceMap, sourceRoot } }
      (other.print body source' output').code = (p.print body source output).code := by
  let start : State := ⟨p.options, p.resolver, source, 0, [], {}⟩
  refine ⟨?_, ?_, ?_⟩
  · intro o h other
    refine ⟨start.filter_emit (.body body) h, ?_⟩
    rw [print_eq, print_eq]
    rfl
  · intro newLine other
    have hagree : List.Forall₂ Fragment.AgreeUpToNewLine (p.fragments body source)
        (other.fragments body source) := start.emit_newLine (.body body) newLine
    refine ⟨hagree.length_eq.symm, hagree, ?_⟩
    rw [print_eq, print_eq, Fragment.map_assemble_congr hagree]
  · intro sourceMap sourceRoot source' output' other
    have htexts : (other.fragments body source').map Fragment.text =
        (p.fragments body source).map Fragment.text :=
      start.texts_emit (.body body) sourceMap sourceRoot source'
    rw [print_eq, print_eq, Fragment.code, Fragment.code, htexts]

/-- Two values in template strings, once on lines that a line feed ends, and once with other line
breaks, indented by tabs and without a source map. -/
theorem print_formatting_template :
    let token (text : String) : Token := { (default : Token) with text }
    let template (name : String) : Statement :=
      .expression (.template (token "`") [.expression (.identifier (token name))] (token "`"))
    let body : Body := [template "a", template "b"]
    let p : Printer := ⟨{}, .none⟩
    let o : Options := { indentUnit := "\t", newLine := .crlf, sourceMap := false }
    o.helperPrefix = p.options.helperPrefix ∧
      Printer.fragments ⟨o, .none⟩ body "f" ≠ p.fragments body "f" ∧
      (Printer.fragments ⟨o, .none⟩ body "f").filter Fragment.isMapped =
        (p.fragments body "f").filter Fragment.isMapped := by
  intro token template body p o
  obtain ⟨hmapped, -, -⟩ := print_formatting p body "f" "g"
  exact ⟨rfl, by decide, (hmapped o rfl).1⟩

end Printer

end Downlevel
