import Downlevel.Proofs.Evaluation
import Downlevel.Proofs.Weaving

/-!
# Function literals around parts

Deferred operands are put into function literals of their own. Here the literals that are open at a
place in the text are counted. Whatever is emitted for a site closes what it opens, and all that a
site *holds*, directly or through its parts, is written as a whole inside as many literals as the
entries of the skeletons on the way say (`Site.Holds.inside`).
-/

namespace Downlevel

open Piece (opening closing)

/-! ## Counting in the text -/

namespace Piece

/-- How many function literals of deferred operands are open behind the piece, when so many are
open before it. There is no answer if it closes one that is not open. -/
def literals (count : Nat) (piece : Piece) : Option Nat :=
  if piece = opening then some (count + 1)
  else if piece = closing then if count = 0 then none else some (count - 1)
  else some count

theorem literals_closing (count : Nat) : closing.literals (count + 1) = some count := by
  have hne : closing ≠ opening := by decide
  simp [literals, hne]

theorem literals_of_isFiller {piece : Piece} (h : piece.isFiller = true) (count : Nat) :
    piece.literals count = some count := by
  have hopening : piece ≠ opening := by
    rintro rfl
    exact absurd h (by decide)
  have hclosing : piece ≠ closing := by
    rintro rfl
    exact absurd h (by decide)
  simp [literals, hopening, hclosing]

theorem literals_of_isMapped {piece : Piece} (h : piece.isMapped = true) (count : Nat) :
    piece.literals count = some count := by
  have hopening : piece ≠ opening := by
    rintro rfl
    cases h
  have hclosing : piece ≠ closing := by
    rintro rfl
    cases h
  simp [literals, hopening, hclosing]

theorem literals_shift (piece : Piece) (levels count : Nat) :
    (piece.shift levels).literals count = piece.literals count := by
  cases piece <;> rfl

/-- Literals that are open all along make no difference. -/
theorem literals_add {piece : Piece} {count after : Nat} (h : piece.literals count = some after)
    (more : Nat) : piece.literals (count + more) = some (after + more) := by
  unfold literals at h ⊢
  grind

end Piece

/-- How many function literals of deferred operands are open behind the pieces, when so many are
open before them. -/
def openLiterals (count : Nat) (pieces : List Piece) : Option Nat :=
  pieces.foldlM Piece.literals count

theorem openLiterals_cons {count after : Nat} {piece : Piece}
    (h : piece.literals count = some after) (rest : List Piece) :
    openLiterals count (piece :: rest) = openLiterals after rest := by
  simp [openLiterals, h]

theorem openLiterals_append (count : Nat) (pieces more : List Piece) :
    openLiterals count (pieces ++ more) =
      (openLiterals count pieces).bind (openLiterals · more) :=
  List.foldlM_append

theorem openLiterals_shift (levels count : Nat) (pieces : List Piece) :
    openLiterals count (pieces.map (Piece.shift levels)) = openLiterals count pieces := by
  simp [openLiterals, List.foldlM_map, Piece.literals_shift]

theorem openLiterals_add {count after : Nat} {pieces : List Piece}
    (h : openLiterals count pieces = some after) (more : Nat) :
    openLiterals (count + more) pieces = some (after + more) := by
  induction pieces generalizing count with
  | nil =>
    cases h
    rfl
  | cons piece rest ih =>
    obtain ⟨next, hpiece, hrest⟩ := Option.bind_eq_some_iff.mp h
    exact (openLiterals_cons (Piece.literals_add hpiece more) rest).trans (ih hrest)

/-- Every function literal that the pieces open they close, and they close no other. -/
def Balanced (pieces : List Piece) : Prop := openLiterals 0 pieces = some 0

/-- Somewhere among the pieces others stand as a whole, some levels further down, inside so many
function literals of deferred operands. -/
def Inside (pieces inner : List Piece) (count : Nat) : Prop :=
  ∃ before levels after, pieces = before ++ inner.map (Piece.shift levels) ++ after ∧
    openLiterals 0 before = some count

namespace Inside

theorem refl (pieces : List Piece) : Inside pieces pieces 0 :=
  ⟨[], 0, [], by simp [Piece.map_shift_zero], rfl⟩

theorem trans {outer middle inner : List Piece} {m n : Nat} (h : Inside outer middle m)
    (hinner : Inside middle inner n) : Inside outer inner (m + n) := by
  obtain ⟨before, levels, after, rfl, hbefore⟩ := h
  obtain ⟨before', levels', after', rfl, hbefore'⟩ := hinner
  refine ⟨before ++ before'.map (Piece.shift levels), levels' + levels,
    after'.map (Piece.shift levels) ++ after, ?_, ?_⟩
  · have hshift : Piece.shift levels ∘ Piece.shift levels' = Piece.shift (levels' + levels) :=
      funext fun piece => Piece.shift_shift piece levels' levels
    simp [hshift]
  · rw [openLiterals_append, hbefore, Option.bind_some, openLiterals_shift]
    have hmore := openLiterals_add hbefore' m
    rwa [Nat.zero_add, Nat.add_comm n m] at hmore

end Inside

/-! ## From skeletons to the text -/

namespace Woven

variable {i j : Nat} {pieces : List Piece} {slots : List Slot}

/-- Pieces keep count as their skeleton says, if its parts are balanced. -/
theorem openLiterals_eq (h : Woven i pieces slots j)
    (hparts : ∀ site count, .part site count ∈ slots → Balanced site.emit) :
    openLiterals i pieces = some j := by
  induction h with
  | nil => rfl
  | opening _ ih => exact (openLiterals_cons rfl _).trans (ih hparts)
  | closing _ ih => exact (openLiterals_cons (Piece.literals_closing _) _).trans (ih hparts)
  | filler hpiece _ ih =>
    exact (openLiterals_cons (Piece.literals_of_isFiller hpiece _) _).trans (ih hparts)
  | own hpiece _ ih =>
    refine (openLiterals_cons (Piece.literals_of_isMapped hpiece _) _).trans ?_
    exact ih fun site count hsite => hparts site count (List.mem_cons_of_mem _ hsite)
  | @part i j pieces slots site levels _ ih =>
    -- the part is balanced by itself, and so it is with `i` literals open around it
    have hsite := openLiterals_add (hparts site i List.mem_cons_self) i
    rw [Nat.zero_add] at hsite
    rw [openLiterals_append, openLiterals_shift, hsite, Option.bind_some]
    exact ih fun site count hsite => hparts site count (List.mem_cons_of_mem _ hsite)

/-- The skeleton may be read off in two steps. -/
theorem split {before : List Slot} {site : Site} {count : Nat} {after : List Slot}
    (h : Woven i pieces (before ++ .part site count :: after) j) :
    ∃ left levels right, pieces = left ++ site.emit.map (Piece.shift levels) ++ right ∧
      Woven i left before count ∧ Woven count right after j := by
  -- the entries before the part are used up one by one
  generalize hslots : before ++ Slot.part site count :: after = slots at h
  induction h generalizing before with
  | nil => simp at hslots
  | opening _ ih =>
    obtain ⟨left, levels, right, rfl, hleft, hright⟩ := ih hslots
    exact ⟨_ :: left, levels, right, rfl, .opening hleft, hright⟩
  | closing _ ih =>
    obtain ⟨left, levels, right, rfl, hleft, hright⟩ := ih hslots
    exact ⟨_ :: left, levels, right, rfl, .closing hleft, hright⟩
  | filler hpiece _ ih =>
    obtain ⟨left, levels, right, rfl, hleft, hright⟩ := ih hslots
    exact ⟨_ :: left, levels, right, rfl, .filler hpiece hleft, hright⟩
  | own hpiece _ ih =>
    cases before with
    | nil => cases hslots
    | cons slot before =>
      obtain ⟨rfl, htail⟩ := List.cons.inj hslots
      obtain ⟨left, levels, right, rfl, hleft, hright⟩ := ih htail
      exact ⟨_ :: left, levels, right, rfl, .own hpiece hleft, hright⟩
  | @part i j pieces slots first levels hrest ih =>
    cases before with
    | nil =>
      cases hslots
      exact ⟨[], levels, pieces, rfl, .nil, hrest⟩
    | cons slot before =>
      obtain ⟨rfl, htail⟩ := List.cons.inj hslots
      obtain ⟨left, lower, right, rfl, hleft, hright⟩ := ih htail
      refine ⟨first.emit.map (Piece.shift levels) ++ left, lower, right, ?_, ?_, hright⟩
      · simp
      · exact .part first levels hleft

/-- A part lies inside as many function literals as its entry says. -/
theorem inside {site : Site} {count : Nat} (h : Woven 0 pieces slots 0)
    (hparts : ∀ site count, .part site count ∈ slots → Balanced site.emit)
    (hsite : .part site count ∈ slots) : Inside pieces site.emit count := by
  obtain ⟨before, after, rfl⟩ := List.append_of_mem hsite
  obtain ⟨left, levels, right, rfl, hleft, -⟩ := h.split
  refine ⟨left, levels, right, rfl, hleft.openLiterals_eq fun part n hpart => ?_⟩
  exact hparts part n (List.mem_append_left _ hpart)

end Woven

/-! ### Parts of a node

Parts are smaller than the whole, and only deferred operands are put into function literals. -/

namespace Slot

/-- The entry may be one of a node of the size `bound` with the given deferred operands. -/
def Fits (bound : Nat) (operands : List Expression) : Slot → Prop
  | own _ => True
  | part site literals => sizeOf site.tree < bound ∧
      (literals = 0 ∨ literals = 1 ∧ ∃ e ∈ operands, site.tree = .expression e)

def AllFit (bound : Nat) (operands : List Expression) (slots : List Slot) : Prop :=
  ∀ slot ∈ slots, slot.Fits bound operands

variable {bound : Nat} {operands : List Expression}

@[simp] theorem fits_own (piece : Piece) : (own piece).Fits bound operands := trivial

@[simp] theorem fits_token (t : Token) : (token t).Fits bound operands := trivial

@[simp] theorem fits_operand (scope : Scope) (e : Expression) :
    (operand scope e).Fits bound operands ↔ 1 + sizeOf e < bound := by
  simp [operand, Fits]

@[simp] theorem fits_deferred (scope : Scope) (e : Expression) :
    (deferred scope e).Fits bound operands ↔ 1 + sizeOf e < bound ∧ e ∈ operands := by
  simp [deferred, Fits]

@[simp] theorem fits_statement (scope : Scope) (s : Statement) :
    (statement scope s).Fits bound operands ↔ 1 + sizeOf s < bound := by
  simp [statement, Fits]

@[simp] theorem fits_block (scope : Scope) (ownerLine : Nat) (b : Block) :
    (block scope ownerLine b).Fits bound operands ↔ 1 + sizeOf b < bound := by
  simp [block, Fits]

@[simp] theorem allFit_nil : AllFit bound operands [] := by
  simp [AllFit]

@[simp] theorem allFit_cons (slot : Slot) (rest : List Slot) :
    AllFit bound operands (slot :: rest) ↔
      slot.Fits bound operands ∧ AllFit bound operands rest :=
  List.forall_mem_cons

@[simp] theorem allFit_append (slots more : List Slot) :
    AllFit bound operands (slots ++ more) ↔
      AllFit bound operands slots ∧ AllFit bound operands more :=
  List.forall_mem_append

theorem allFit_map {α : Type} [SizeOf α] {f : α → Slot} {list : List α}
    (h : ∀ a, sizeOf a < sizeOf list → (f a).Fits bound operands) :
    AllFit bound operands (list.map f) := by
  intro slot hslot
  obtain ⟨a, ha, rfl⟩ := List.mem_map.mp hslot
  exact h a (List.sizeOf_lt_of_mem ha)

theorem allFit_flatMap {α : Type} [SizeOf α] {f : α → List Slot} {list : List α}
    (h : ∀ a, sizeOf a < sizeOf list → AllFit bound operands (f a)) :
    AllFit bound operands (list.flatMap f) := by
  intro slot hslot
  obtain ⟨a, ha, hslot⟩ := List.mem_flatMap.mp hslot
  exact h a (List.sizeOf_lt_of_mem ha) slot hslot

end Slot

section Fitting

variable {bound : Nat} {operands : List Expression} (scope : Scope)

open Slot (AllFit)

theorem allFit_operands {list : List Expression} (h : sizeOf list < bound) :
    AllFit bound operands (list.map (Slot.operand scope)) := by
  apply Slot.allFit_map
  intro e he
  rw [Slot.fits_operand]
  omega

@[simp] theorem allFit_tokens (list : List Token) : AllFit bound operands (list.map Slot.token) :=
  Slot.allFit_map fun t _ => Slot.fits_token t

theorem allFit_comment (c : Comment) : AllFit bound operands c.slots :=
  Slot.allFit_map fun _ _ => trivial

@[simp] theorem allFit_typeClause (clause? : Option TypeClause) :
    AllFit bound operands (TypeClause.slots clause?) := by
  cases clause? <;> simp [TypeClause.slots]

theorem Parameter.allFit {p : Parameter} (h : sizeOf p < bound) :
    AllFit bound operands (p.slots scope) := by
  obtain ⟨name, default?, type?⟩ := p
  cases default? with
  | none => simp [Parameter.slots]
  | some value =>
    simp [Parameter.slots] at h ⊢
    omega

theorem FunctionLiteral.allFit {f : FunctionLiteral} (name? : Option Piece)
    (h : sizeOf f < bound) : AllFit bound operands (f.slots scope name?) := by
  obtain ⟨keyword, opening, parameters, closing, returnType?, body, endToken⟩ := f
  have hparameters : AllFit bound operands (parameters.flatMap (Parameter.slots scope)) := by
    apply Slot.allFit_flatMap
    intro p hp
    apply Parameter.allFit
    simp at h
    omega
  cases name? with
  | none =>
    simp [FunctionLiteral.slots, hparameters] at h ⊢
    omega
  | some name =>
    simp [FunctionLiteral.slots, hparameters] at h ⊢
    omega

theorem Member.allFit {m : Member} (h : sizeOf m < bound) :
    AllFit bound operands (m.slots scope) := by
  cases m with
  | comment c => exact allFit_comment c
  | pair key colon value =>
    simp [Member.slots] at h ⊢
    omega

theorem TemplatePart.allFit {p : TemplatePart} (h : sizeOf p < bound) :
    AllFit bound operands (p.slots scope) := by
  cases p with
  | text token => exact Slot.allFit_map fun _ _ => trivial
  | expression e =>
    simp [TemplatePart.slots] at h ⊢
    omega

theorem Expression.allFit (e : Expression) :
    AllFit (sizeOf (Tree.expression e)) e.deferredOperands (e.slots scope) := by
  cases e with
  | binary | unary | identifier | index | xmlAttribute | group | literal =>
    simp [slots] <;> omega
  | call _ _ arguments _ | callfunc _ _ _ _ arguments _ | construct _ _ _ arguments _ =>
    have harguments (bound operands) (h : sizeOf arguments < bound) :
        AllFit bound operands (arguments.map (Slot.operand scope)) := allFit_operands scope h
    simp [slots]
    grind
  | function f =>
    apply FunctionLiteral.allFit
    simp
    omega
  | member =>
    rw [slots]
    split
    · simp
    · simp
      omega
  | conditional | coalesce =>
    rw [slots, deferredOperands]
    split <;> simp <;> omega
  | array opening elements closing =>
    simp only [slots, Slot.allFit_append, Slot.allFit_cons, Slot.allFit_nil, Slot.fits_token,
      true_and, and_true]
    apply allFit_operands
    simp
    omega
  | record opening members closing =>
    simp only [slots, Slot.allFit_append, Slot.allFit_cons, Slot.allFit_nil, Slot.fits_token,
      true_and, and_true]
    apply Slot.allFit_flatMap
    intro m hm
    apply Member.allFit
    simp
    omega
  | template opening parts closing =>
    rw [slots]
    split
    · simp
    · apply Slot.allFit_flatMap
      intro p hp
      apply TemplatePart.allFit
      simp
      omega
  | comment c => exact allFit_comment c

theorem ElseIf.allFit {clause : ElseIf} (h : sizeOf clause < bound) :
    AllFit bound operands (clause.slots scope) := by
  obtain ⟨keyword, condition, then?, body⟩ := clause
  simp [ElseIf.slots, Slot.tokens] at h ⊢
  omega

theorem allFit_elseIfs {list : List ElseIf} (h : sizeOf list < bound) :
    AllFit bound operands (list.flatMap (ElseIf.slots scope)) := by
  apply Slot.allFit_flatMap
  intro clause hclause
  exact ElseIf.allFit scope (hclause.trans h)

theorem PrintItem.allFit {item : PrintItem} (h : sizeOf item < bound) :
    AllFit bound operands (item.slots scope) := by
  cases item with
  | expression e =>
    simp [PrintItem.slots] at h ⊢
    omega
  | separator => simp [PrintItem.slots]

theorem allFit_statements {list : List Statement} (h : sizeOf list < bound) :
    AllFit bound operands (list.map (Slot.statement scope)) := by
  apply Slot.allFit_map
  intro s hs
  rw [Slot.fits_statement]
  omega

theorem Statement.allFit (s : Statement) :
    AllFit (sizeOf (Tree.statement s)) [] (s.slots scope) := by
  cases s with
  | comment c => exact allFit_comment c
  | assignment a =>
    obtain ⟨name, operator, value⟩ := a
    simp [slots, Assignment.slots]
    omega
  | branch first condition then? body elseIfs else? end? =>
    have hclauses (bound operands) (h : sizeOf elseIfs < bound) :
        AllFit bound operands (elseIfs.flatMap (ElseIf.slots scope)) := allFit_elseIfs scope h
    cases else? with
    | none =>
      simp [slots, Slot.tokens]
      grind
    | some clause =>
      obtain ⟨elseToken, otherwise⟩ := clause
      simp [slots, Slot.tokens, Else.slots]
      grind
  | forLoop first counter toToken limit step? body endToken =>
    obtain ⟨name, operator, value⟩ := counter
    cases step? with
    | none =>
      simp [slots, Assignment.slots]
      omega
    | some step =>
      obtain ⟨stepToken, amount⟩ := step
      simp [slots, Assignment.slots, ForStep.slots]
      omega
  | print first items =>
    simp only [slots, Slot.allFit_cons, Slot.fits_token, true_and]
    apply Slot.allFit_flatMap
    intro item hitem
    apply PrintItem.allFit
    simp
    omega
  | returning first value? =>
    cases value? with
    | none => simp [slots]
    | some value =>
      simp [slots]
      omega
  | function name f =>
    apply FunctionLiteral.allFit
    simp
    omega
  | namespaceBlock first name body endToken =>
    apply allFit_statements
    simp
    omega
  | _ => simp [slots] <;> omega

end Fitting

namespace Site

/-- The deferred operands of a site that is an expression. -/
def deferredOperands (site : Site) : List Expression :=
  match site.tree with
  | .expression e => e.deferredOperands
  | _ => []

theorem allFit (site : Site) :
    Slot.AllFit (sizeOf site.tree) site.deferredOperands site.slots := by
  obtain ⟨scope, ownerLine?, tree⟩ := site
  cases tree with
  | body statements =>
    apply allFit_statements
    simp
  | block b =>
    obtain ⟨start, statements⟩ := b
    apply allFit_statements
    simp
    omega
  | statement s => exact s.allFit scope
  | expression e => exact e.allFit scope

end Site

/-! ### What a site holds -/

namespace Site

/-- Whatever is emitted for a site closes the function literals that it opens. -/
theorem balanced (site : Site) : Balanced site.emit := by
  induction site using WellFounded.induction (measure fun site : Site => sizeOf site.tree).wf with
  | _ site ih =>
    refine site.woven.openLiterals_eq fun part count hpart => ih part ?_
    exact (site.allFit _ hpart).1

/-- The second site is the first one or lies in one of its parts, inside so many deferred
operands. -/
inductive Holds : Site → Site → Nat → Prop
  | self (site : Site) : Holds site site 0
  | part {site part inner : Site} {literals count : Nat} : .part part literals ∈ site.slots →
      Holds part inner count → Holds site inner (literals + count)

theorem Holds.inside {site inner : Site} {count : Nat} (h : site.Holds inner count) :
    Inside site.emit inner.emit count := by
  induction h with
  | self site => exact .refl site.emit
  | @part site part inner literals count hpart _ ih =>
    exact (site.woven.inside (fun part _ _ => part.balanced) hpart).trans ih

end Site

end Downlevel
