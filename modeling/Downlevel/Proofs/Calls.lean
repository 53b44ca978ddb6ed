import Downlevel.Proofs.Placement

/-!
# The helpers that a tree requires

A choice, a fallback or a template string with an expression in it is written as a call of a helper,
wherever it stands in a tree. Here the tree says which helpers it requires, without a word about
what is written: `Node.Requires` looks for expressions that call the helper (`Expression.Calls`).

The pieces of a tree name exactly the helpers that the tree requires (`Site.mem_helpers_iff`), and
each of them in a call (`Site.exists_call`).
-/

namespace Downlevel

/-- The expression itself is written as a call of the helper: which one a choice or a fallback calls
depends on whether evaluating its operands may have a side effect. -/
def Expression.Calls : Expression → Helper → Prop
  | .conditional _ _ consequent _ alternate, .scopeSafeTernary =>
    consequent.MayMutate ∨ alternate.MayMutate
  | .conditional _ _ consequent _ alternate, .simpleTernary =>
    ¬ (consequent.MayMutate ∨ alternate.MayMutate)
  | .coalesce left _ right, .scopeSafeCoalesce => left.MayMutate ∨ right.MayMutate
  | .coalesce left _ right, .simpleCoalesce => ¬ (left.MayMutate ∨ right.MayMutate)
  | .template _ parts _, .toText => ∃ e, .expression e ∈ parts
  | _, _ => False

namespace Node

/-- An expression at or below the node calls the helper. -/
def Requires (n : Node) (h : Helper) : Prop := ∃ e, n.Holds (expression e) ∧ e.Calls h

end Node

namespace Expression

variable {h : Helper}

theorem calls_conditional_iff {test : Expression} {question : Token} {consequent : Expression}
    {colon : Token} {alternate : Expression} :
    Calls (.conditional test question consequent colon alternate) h ↔
      h = if consequent.containsMutating || alternate.containsMutating then .scopeSafeTernary
        else .simpleTernary := by
  split <;> cases h <;> simp_all [Calls, containsMutating_iff]

theorem calls_coalesce_iff {left : Expression} {operator : Token} {right : Expression} :
    Calls (.coalesce left operator right) h ↔
      h = if left.containsMutating || right.containsMutating then .scopeSafeCoalesce
        else .simpleCoalesce := by
  split <;> cases h <;> simp_all [Calls, containsMutating_iff]

theorem calls_template_iff {opening : Token} {parts : List TemplatePart} {closing : Token} :
    Calls (.template opening parts closing) h ↔ h = .toText ∧ ∃ e, .expression e ∈ parts := by
  cases h <;> simp [Calls]

/-- What calls a helper is no dotted name. -/
theorem ofExpression?_of_calls {e : Expression} (hcalls : e.Calls h) :
    DottedName.ofExpression? e = none := by
  cases e with
  | conditional | coalesce | template => rfl
  | _ => cases hcalls

theorem helper?_literalPiece (token : Token) : (literalPiece token).helper? = none := by
  rw [literalPiece]
  split <;> rfl

end Expression

/-! ## Helpers of pieces -/

namespace Piece

variable {h : Helper}

@[simp] theorem helper?_written (position : Position) (text : String) :
    (written position text).helper? = none := rfl

@[simp] theorem helper?_helper (position : Position) (h : Helper) :
    (helper position h).helper? = some h := rfl

theorem helper?_shift (levels : Nat) (piece : Piece) :
    (piece.shift levels).helper? = piece.helper? := by
  cases piece <;> rfl

@[simp] theorem helpers_append (pieces more : List Piece) :
    helpers (pieces ++ more) = helpers pieces ++ helpers more :=
  List.filterMap_append

@[simp] theorem helpers_map_shift (levels : Nat) (pieces : List Piece) :
    helpers (pieces.map (shift levels)) = helpers pieces := by
  rw [helpers, List.filterMap_map]
  exact List.filterMap_congr fun piece _ => helper?_shift levels piece

theorem mem_helpers_cons {piece : Piece} {pieces : List Piece} :
    h ∈ helpers (piece :: pieces) ↔ piece.helper? = some h ∨ h ∈ helpers pieces := by
  simp [helpers]

theorem helper?_of_isFiller {piece : Piece} (hpiece : piece.isFiller = true) :
    piece.helper? = none := by
  cases piece with
  | helper => cases hpiece
  | _ => rfl

end Piece

/-! ## Helpers of skeletons -/

namespace Slot

variable {h : Helper} {scope : Scope}

/-- The entry is the name of the helper, or a part whose pieces name it. -/
def Names (h : Helper) : Slot → Prop
  | own piece => piece.helper? = some h
  | part site _ => h ∈ Piece.helpers site.emit

/-- The helper is named in the skeleton. -/
def Named (h : Helper) (slots : List Slot) : Prop := ∃ slot ∈ slots, slot.Names h

@[simp] theorem named_nil : ¬ Named h [] := by
  simp [Named]

@[simp] theorem named_cons {slot : Slot} {rest : List Slot} :
    Named h (slot :: rest) ↔ slot.Names h ∨ Named h rest := by
  simp [Named]

end Slot

open Slot (Named)

/-- The pieces name the helpers that the skeleton names. -/
theorem Woven.mem_helpers_iff {h : Helper} {i j : Nat} {pieces : List Piece} {slots : List Slot}
    (hwoven : Woven i pieces slots j) : h ∈ Piece.helpers pieces ↔ Named h slots := by
  induction hwoven with
  | nil => simp [Piece.helpers]
  | opening _ ih | closing _ ih =>
    rw [Piece.mem_helpers_cons, ih]
    simp [Piece.opening, Piece.closing, Piece.helper?]
  | filler hpiece _ ih =>
    rw [Piece.mem_helpers_cons, ih, Piece.helper?_of_isFiller hpiece]
    simp
  | own _ _ ih =>
    rw [Piece.mem_helpers_cons, ih, Slot.named_cons]
    rfl
  | part site levels _ ih =>
    rw [Piece.helpers_append, List.mem_append, Piece.helpers_map_shift, ih, Slot.named_cons]
    rfl

/-! ## Calls in the text -/

/-- Somewhere in the pieces the helper is called. -/
def Piece.Call (h : Helper) (pieces : List Piece) : Prop :=
  ∃ position, [.helper position h, .text "("] <:+: pieces

namespace Piece.Call

variable {h : Helper} {pieces : List Piece}

theorem mem_helpers (hcall : Call h pieces) : h ∈ helpers pieces := by
  obtain ⟨position, before, after, rfl⟩ := hcall
  simp [helpers]

theorem of_inside {inner : List Piece} {count : Nat} (hcall : Call h inner)
    (hinside : Inside pieces inner count) : Call h pieces := by
  obtain ⟨position, before, after, rfl⟩ := hcall
  obtain ⟨front, levels, back, rfl, -⟩ := hinside
  refine ⟨position, front ++ before.map (shift levels), after.map (shift levels) ++ back, ?_⟩
  simp [shift]

theorem of_infix {inner : List Piece} (hcall : Call h inner) (hinner : inner <:+: pieces) :
    Call h pieces := by
  obtain ⟨position, hcall⟩ := hcall
  exact ⟨position, hcall.trans hinner⟩

end Piece.Call

/-! ### Helpers of the node itself -/

namespace Slot

variable (scope : Scope) (position : Position) (h : Helper)

/-- The skeleton has the name of the helper as an entry of its own. -/
def Own (slots : List Slot) : Prop := own (.helper position h) ∈ slots

variable {position h}

@[simp] theorem not_own_nil : ¬ Own position h [] := List.not_mem_nil

@[simp] theorem own_cons_own {piece : Piece} {rest : List Slot} :
    Own position h (own piece :: rest) ↔ piece = .helper position h ∨ Own position h rest := by
  simp [Own, eq_comm]

@[simp] theorem own_cons_token {t : Token} {rest : List Slot} :
    Own position h (token t :: rest) ↔ Own position h rest := by
  simp [Own, token, Token.piece]

@[simp] theorem own_cons_part {site : Site} {literals : Nat} {rest : List Slot} :
    Own position h (part site literals :: rest) ↔ Own position h rest := by
  simp [Own]

@[simp] theorem own_cons_operand {e : Expression} {rest : List Slot} :
    Own position h (operand scope e :: rest) ↔ Own position h rest := own_cons_part

@[simp] theorem own_cons_deferred {e : Expression} {rest : List Slot} :
    Own position h (deferred scope e :: rest) ↔ Own position h rest := own_cons_part

@[simp] theorem own_cons_block {ownerLine : Nat} {b : Block} {rest : List Slot} :
    Own position h (block scope ownerLine b :: rest) ↔ Own position h rest := own_cons_part

@[simp] theorem own_append {slots more : List Slot} :
    Own position h (slots ++ more) ↔ Own position h slots ∨ Own position h more :=
  List.mem_append

theorem not_own_map {α : Type} {f : α → Slot} {list : List α} (hf : ∀ a, ¬ Own position h [f a]) :
    ¬ Own position h (list.map f) := by
  intro hmem
  obtain ⟨a, -, ha⟩ := List.mem_map.mp hmem
  exact hf a (List.mem_singleton.mpr ha.symm)

theorem not_own_flatMap {α : Type} {f : α → List Slot} {list : List α}
    (hf : ∀ a, ¬ Own position h (f a)) : ¬ Own position h (list.flatMap f) := by
  intro hmem
  obtain ⟨a, -, ha⟩ := List.mem_flatMap.mp hmem
  exact hf a ha

end Slot

section Own

variable {position : Position} {h : Helper} (scope : Scope)

open Slot (Own)

theorem not_own_operands (list : List Expression) :
    ¬ Own position h (list.map (Slot.operand scope)) :=
  Slot.not_own_map (by simp)

theorem not_own_tokens (list : List Token) : ¬ Own position h (list.map Slot.token) :=
  Slot.not_own_map (by simp)

theorem not_own_tokenOr (t? : Option Token) : ¬ Own position h (Slot.tokens t?) :=
  not_own_tokens _

theorem Comment.not_own (c : Comment) : ¬ Own position h c.slots :=
  Slot.not_own_map (by simp)

theorem TypeClause.not_own (clause? : Option TypeClause) :
    ¬ Own position h (TypeClause.slots clause?) := by
  cases clause? <;> simp [slots]

theorem Parameter.not_own (p : Parameter) : ¬ Own position h (p.slots scope) := by
  simp [slots, not_own_operands, TypeClause.not_own]

theorem Member.not_own (m : Member) : ¬ Own position h (m.slots scope) := by
  cases m <;> simp [slots, Comment.not_own]

theorem FunctionLiteral.not_own (name? : Option Piece)
    (hname : ∀ name ∈ name?, name.helper? = none) (f : FunctionLiteral) :
    ¬ Own position h (f.slots scope name?) := by
  have hparameters : ¬ Own position h (f.parameters.flatMap (Parameter.slots scope)) :=
    Slot.not_own_flatMap (Parameter.not_own scope)
  cases name? with
  | none => simp [slots, hparameters, TypeClause.not_own]
  | some name =>
    have hne : name ≠ .helper position h := by
      rintro rfl
      cases hname _ rfl
    simp [slots, hparameters, TypeClause.not_own, hne]

/-- An expression writes the name of a helper only for a call of its own. -/
theorem Expression.calls_of_own (e : Expression) (hown : Own position h (e.slots scope)) :
    e.Calls h := by
  cases e with
  | function f => exact absurd hown (f.not_own scope none (by simp))
  | comment c => exact absurd hown c.not_own
  | member object dot name =>
    rw [slots] at hown
    split at hown
    next piece hpiece =>
      obtain ⟨position, text, rfl⟩ := eq_written_of_flattened? hpiece
      simp at hown
    next => simp at hown
  | conditional test question consequent colon alternate =>
    rw [calls_conditional_iff]
    rw [slots] at hown
    split <;> simp_all [not_own_tokens]
  | coalesce left operator right =>
    rw [calls_coalesce_iff]
    rw [slots] at hown
    split <;> simp_all [not_own_tokens]
  | template opening parts closing =>
    rw [calls_template_iff]
    rw [slots] at hown
    split at hown
    next => simp at hown
    next =>
      obtain ⟨part, hpart, hown⟩ := List.mem_flatMap.mp hown
      cases part with
      | text token => exact absurd hown (Slot.not_own_map (by simp))
      | expression e =>
        obtain ⟨-, rfl⟩ : position = e.range.start ∧ h = .toText := by
          simpa [TemplatePart.slots, Slot.operand] using hown
        exact ⟨rfl, e, hpart⟩
  | record opening members closing =>
    have hmembers : ¬ Own position h (members.flatMap (Member.slots scope)) :=
      Slot.not_own_flatMap (Member.not_own scope)
    rw [slots] at hown
    simp [hmembers] at hown
  | literal token =>
    have hliteral := helper?_literalPiece token
    rw [slots, Slot.own_cons_own] at hown
    simp_all
  | _ =>
    rw [slots] at hown
    simp [not_own_operands] at hown

theorem Statement.not_own (s : Statement) : ¬ Own position h (s.slots scope) := by
  cases s with
  | function name f => exact f.not_own scope _ (by simp)
  | comment c => exact c.not_own
  | branch first condition then? body elseIfs else? end? =>
    have helseIfs : ¬ Own position h (elseIfs.flatMap (ElseIf.slots scope)) :=
      Slot.not_own_flatMap fun clause => by simp [ElseIf.slots, not_own_tokenOr]
    have helse : ¬ Own position h (else?.toList.flatMap (Else.slots scope)) :=
      Slot.not_own_flatMap fun clause => by simp [Else.slots]
    simp [slots, not_own_tokenOr, helseIfs, helse]
  | forLoop first counter toToken limit step? body endToken =>
    have hstep : ¬ Own position h (step?.toList.flatMap (ForStep.slots scope)) :=
      Slot.not_own_flatMap fun step => by simp [ForStep.slots]
    simp [slots, Assignment.slots, hstep]
  | print first items =>
    have hitems : ¬ Own position h (items.flatMap (PrintItem.slots scope)) :=
      Slot.not_own_flatMap fun item => by cases item <;> simp [PrintItem.slots]
    simp [slots, hitems]
  | namespaceBlock first name body endToken => exact Slot.not_own_map (by simp [Slot.statement])
  | returning first value? => simp [slots, not_own_operands]
  | _ => simp [slots, Assignment.slots]

end Own

/-! ### The calls themselves -/

section Operands

variable {operand : List Piece} {operands : List (List Piece)}

theorem Piece.infix_separated (separator : String) (h : operand ∈ operands) :
    operand <:+: Piece.separated separator operands := by
  induction operands using Piece.separated.induct with
  | case1 => cases h
  | case2 pieces =>
    obtain rfl := List.mem_singleton.mp h
    exact List.infix_rfl
  | case3 pieces next rest ih =>
    rw [Piece.separated]
    rcases List.mem_cons.mp h with rfl | hrest
    · exact (List.prefix_append operand _).isInfix
    · rw [List.append_cons]
      exact (ih hrest).trans (List.suffix_append (pieces ++ [.text separator]) _).isInfix

theorem Layout.infix_concatenation (opening : Token) (h : operand ∈ operands) :
    operand <:+: Layout.concatenation opening operands := by
  match operands, h with
  | [_], h =>
    obtain rfl := List.mem_singleton.mp h
    exact List.infix_rfl
  | first :: next :: rest, h =>
    exact (Piece.infix_separated " + " h).trans ⟨[.text "("], [.text ")"], rfl⟩

end Operands

theorem Piece.Call.helperCall (position : Position) (h : Helper) (operands : List (List Piece)) :
    Call h (helperCall position h operands) :=
  ⟨position, [], Piece.separated ", " operands ++ [.text ")"], rfl⟩

theorem mem_templateOperands (scope : Scope) {parts : List TemplatePart} {e : Expression}
    (h : .expression e ∈ parts) :
    ([.helper e.range.start .toText, .text "("] ++ e.emit scope ++ [.text ")"]) ∈
      templateOperands scope parts := by
  induction parts with
  | nil => cases h
  | cons part rest ih =>
    rcases List.mem_cons.mp h with rfl | hrest
    · exact List.mem_cons_self
    · cases part with
      | text token => exact List.mem_append_right _ (ih hrest)
      | expression => exact List.mem_cons_of_mem _ (ih hrest)

theorem Expression.call_of_calls {h : Helper} (scope : Scope) {e : Expression}
    (hcalls : e.Calls h) : Piece.Call h (e.emit scope) := by
  cases e with
  | conditional test question consequent colon alternate =>
    rw [calls_conditional_iff] at hcalls
    rw [emit_conditional]
    split at hcalls <;> simp_all [Piece.Call.helperCall]
  | coalesce left operator right =>
    rw [calls_coalesce_iff] at hcalls
    rw [emit_coalesce]
    split at hcalls <;> simp_all [Piece.Call.helperCall]
  | template opening parts closing =>
    rw [calls_template_iff] at hcalls
    obtain ⟨rfl, e, he⟩ := hcalls
    rw [emit]
    have hoperand := mem_templateOperands scope he
    refine Piece.Call.of_infix ?_ (Layout.infix_concatenation opening hoperand)
    exact ⟨e.range.start, [], e.emit scope ++ [.text ")"], rfl⟩
  | _ => cases hcalls

namespace Site

variable {h : Helper}

/-- A helper that is named in the pieces of a site is called by an expression that is written
there. -/
theorem exists_writes (site : Site) (hmem : h ∈ Piece.helpers site.emit) :
    ∃ e, site.Writes e ∧ e.Calls h := by
  induction site using WellFounded.induction (measure fun site : Site => sizeOf site.tree).wf with
  | _ site ih =>
    obtain ⟨slot, hslot, hnames⟩ := site.woven.mem_helpers_iff.mp hmem
    cases slot with
    | part inner literals =>
      obtain ⟨e, hwrites, hcalls⟩ := ih inner (site.allFit _ hslot).1 hnames
      exact ⟨e, site.writes_iff.mpr (.inr ⟨_, hslot, hwrites⟩), hcalls⟩
    | own piece =>
      cases piece with
      | helper position named =>
        obtain rfl := Option.some.inj hnames
        obtain ⟨scope, ownerLine?, tree⟩ := site
        cases tree with
        | expression e =>
          exact ⟨e, (Site.writes_iff _).mpr (.inl rfl), e.calls_of_own scope hslot⟩
        | statement s => exact absurd hslot (s.not_own scope)
        | body | block => exact absurd hslot (Slot.not_own_map (by simp [Slot.statement]))
      | _ => cases hnames

theorem Writes.call {site : Site} {e : Expression} (hwrites : site.Writes e)
    (hcalls : e.Calls h) : Piece.Call h site.emit := by
  obtain ⟨⟨scope, ownerLine?, _⟩, count, hholds, rfl⟩ := hwrites
  exact (e.call_of_calls scope hcalls).of_inside hholds.inside

/-- The pieces of a tree name the helpers that the tree requires. -/
theorem mem_helpers_iff (site : Site) :
    h ∈ Piece.helpers site.emit ↔ site.tree.node.Requires h := by
  constructor
  · intro hmem
    obtain ⟨e, hwrites, hcalls⟩ := site.exists_writes hmem
    have he := Expression.ofExpression?_of_calls hcalls
    exact ⟨e, (site.writes_iff_holds he).mp hwrites, hcalls⟩
  · rintro ⟨e, hholds, hcalls⟩
    have he := Expression.ofExpression?_of_calls hcalls
    exact (((site.writes_iff_holds he).mpr hholds).call hcalls).mem_helpers

/-- A helper that is named in the pieces of a site is called there. -/
theorem exists_call (site : Site) (hmem : h ∈ Piece.helpers site.emit) :
    Piece.Call h site.emit := by
  obtain ⟨e, hwrites, hcalls⟩ := site.exists_writes hmem
  exact hwrites.call hcalls

end Site

end Downlevel
