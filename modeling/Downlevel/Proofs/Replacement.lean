import Downlevel.Tree.Stored

/-!
# Replaced parts leave no trace

Replacing a part of a function gives back the part that was there, and the ranges that the function
and its declaration keep are computed anew each time. So it does not matter what a function went
through: after any replacements it is the function that would be built of the parts it has now
(`FunctionLiteral.after`), and a replacement can be taken back by the part that it gave.

A function and a declaration of it are replaced in the same way. What has to be known of either is
how one replacement changes it when it has just been built (`Replacement.Exchanges`); the rest is
an induction over the replacements.

Main statement: `FunctionLiteral.exchange_without_trace`.
-/

namespace Downlevel

namespace Replacement

def body? : Replacement → Option Block
  | body b => some b
  | endToken _ => none

def endToken? : Replacement → Option Token
  | body _ => none
  | endToken t => some t

/-- Replaces parts one after the other, and lists what each replacement gives back. -/
def run {α : Type} (exchange : α → Replacement → α × Replacement) (node : α) :
    List Replacement → α × List Replacement
  | [] => (node, [])
  | edit :: rest =>
    let first := exchange node edit
    let others := run exchange first.1 rest
    (others.1, first.2 :: others.2)

end Replacement

namespace FunctionLiteral

/-- The part that such a replacement takes the place of. -/
def inPlaceOf (f : FunctionLiteral) : Replacement → Replacement
  | .body _ => .body f.body
  | .endToken _ => .endToken f.endToken

/-- The function with the last body and the last closing keyword that are given, if there are any,
and all other parts as they are. -/
def after (f : FunctionLiteral) (edits : List Replacement) : FunctionLiteral :=
  ⟨f.keyword, f.opening, f.parameters, f.closing, f.returnType?,
    (edits.filterMap Replacement.body?).getLastD f.body,
    (edits.filterMap Replacement.endToken?).getLastD f.endToken⟩

variable (f : FunctionLiteral) (edits : List Replacement) (edit : Replacement)

theorem after_nil : f.after [] = f := by
  cases f
  rfl

theorem after_concat : f.after (edits ++ [edit]) = (f.after edits).replace edit := by
  cases edit with
  | body b => simp [after, replace, replaceBody, Replacement.body?, Replacement.endToken?]
  | endToken t => simp [after, replace, replaceEnd, Replacement.body?, Replacement.endToken?]

theorem replace_inPlaceOf : (f.replace edit).replace (f.inPlaceOf edit) = f := by
  cases f
  cases edit <;> rfl

theorem inPlaceOf_replace : (f.replace edit).inPlaceOf (f.inPlaceOf edit) = edit := by
  cases edit <;> rfl

end FunctionLiteral

namespace Replacement

variable {α : Type} {exchange : α → Replacement → α × Replacement} {build : FunctionLiteral → α}

/-- A replacement in what has been built of a function gives what would be built of the function
with the new part, and the part that was there. -/
def Exchanges (exchange : α → Replacement → α × Replacement) (build : FunctionLiteral → α) : Prop :=
  ∀ f edit, exchange (build f) edit = (build (f.replace edit), f.inPlaceOf edit)

theorem exchanges_function : Exchanges StoredFunction.exchange .build := by
  intro f edit
  cases edit <;> rfl

theorem exchanges_declaration (name : Token) :
    Exchanges StoredDeclaration.exchange fun f => .build name (.build f) := by
  intro f edit
  cases edit <;> rfl

/-- Putting the part back that was there restores everything. -/
theorem Exchanges.back (h : Exchanges exchange build) (f : FunctionLiteral) (edit : Replacement) :
    exchange (exchange (build f) edit).1 (exchange (build f) edit).2 = (build f, edit) := by
  rw [h f edit, h, f.replace_inPlaceOf, f.inPlaceOf_replace]

/-- The replacements `edits`, when those before them have been made. -/
theorem Exchanges.run_after (h : Exchanges exchange build) (f : FunctionLiteral)
    (before edits : List Replacement) :
    run exchange (build (f.after before)) edits = (build (f.after (before ++ edits)),
      edits.mapIdx fun i edit => (f.after (before ++ edits.take i)).inPlaceOf edit) := by
  induction edits generalizing before with
  | nil => simp [run]
  | cons edit rest ih =>
    have hrest := ih (before ++ [edit])
    rw [f.after_concat] at hrest
    rw [run, h]
    simp [hrest]

theorem Exchanges.run_build (h : Exchanges exchange build) (f : FunctionLiteral)
    (edits : List Replacement) :
    run exchange (build f) edits =
      (build (f.after edits),
        edits.mapIdx fun i edit => (f.after (edits.take i)).inPlaceOf edit) := by
  have hrun := h.run_after f [] edits
  rwa [f.after_nil] at hrun

end Replacement

namespace FunctionLiteral

/-- After any replacements, a function and a declaration of it are equal, ranges included, to what
is built of the function with the last body and the last closing keyword given. Each replacement
gives back the part that was there before it, and putting this part back restores the node. -/
theorem exchange_without_trace (f : FunctionLiteral) (name : Token) (edits : List Replacement) :
    let function := Replacement.run StoredFunction.exchange (.build f) edits
    let declaration := Replacement.run StoredDeclaration.exchange (.build name (.build f)) edits
    let given := edits.mapIdx fun i edit => (f.after (edits.take i)).inPlaceOf edit
    function = (.build (f.after edits), given) ∧
    declaration = (.build name (.build (f.after edits)), given) ∧
    ∀ edit,
      (function.1.exchange edit).2 = (f.after edits).inPlaceOf edit ∧
      (declaration.1.exchange edit).2 = (f.after edits).inPlaceOf edit ∧
      (function.1.exchange edit).1.exchange (function.1.exchange edit).2 = (function.1, edit) ∧
      (declaration.1.exchange edit).1.exchange (declaration.1.exchange edit).2 =
        (declaration.1, edit) := by
  intro function declaration given
  have hfunction : function = (.build (f.after edits), given) :=
    Replacement.exchanges_function.run_build f edits
  have hdeclaration : declaration = (.build name (.build (f.after edits)), given) :=
    (Replacement.exchanges_declaration name).run_build f edits
  refine ⟨hfunction, hdeclaration, fun edit => ?_⟩
  rw [hfunction, hdeclaration]
  refine ⟨?_, ?_, ?_, ?_⟩
  · exact congrArg Prod.snd (Replacement.exchanges_function (f.after edits) edit)
  · exact congrArg Prod.snd (Replacement.exchanges_declaration name (f.after edits) edit)
  · exact Replacement.exchanges_function.back (f.after edits) edit
  · exact (Replacement.exchanges_declaration name).back (f.after edits) edit

end FunctionLiteral

end Downlevel
