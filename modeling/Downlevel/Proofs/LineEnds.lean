import Downlevel.Proofs.Deferral

/-!
# Lines that end in a comment

Everything from the start of a comment to the end of its line is comment. So a line break has to
follow every line of a comment, unless what comes next on the line is a comment itself. Blocks,
arrays, records, functions and clauses all have comments among code, and each of them writes its
line breaks itself.

The pieces are read here from left to right: `placeBehind?` has no answer where something follows a
comment line that must not. Most nodes are `Whole`: they begin and end in code. Sequences of
statements may end in a comment, but they can be read behind one (`Follows`).
-/

namespace Downlevel

open Piece (newLine nested separated)

/-- What a reader of the pieces is in the middle of. -/
inductive Place where
  | code
  /-- Behind a line of a comment. -/
  | comment
  /-- Behind a line of a comment and a space. -/
  | space
  /-- Behind the keyword of an import, which is written as a comment. -/
  | importKeyword
  | importSpace

/-! ## Reading pieces -/

namespace Piece

/-- The place behind a piece. Only texts that `first` takes for the first line of a comment may
stand on the line of another comment. -/
def follow (first : Position → String → Bool) (place : Place) (piece : Piece) : Option Place :=
  match place, piece with
  | .code, comment .. => some .comment
  | .code, commentedOut .. => some .importKeyword
  | .code, _ => some .code
  | .comment, lineBreak => some .code
  | .comment, text s => if s = " " then some .space else none
  | .space, comment position s => if first position s then some .comment else none
  | .importKeyword, text s => if s = " " then some .importSpace else none
  | .importSpace, commentedOut .. => some .comment
  | _, _ => none

/-- The piece is no comment and no part of one. -/
def isCode : Piece → Bool
  | comment .. => false
  | commentedOut .. => false
  | _ => true

end Piece

section Reading

variable (first : Position → String → Bool)

def placeBehind? (place : Place) (pieces : List Piece) : Option Place :=
  pieces.foldlM (Piece.follow first) place

/-- The pieces may stand among code, with code behind them. -/
def Whole (pieces : List Piece) : Prop := placeBehind? first .code pieces = some .code

/-- The pieces may stand behind the place if what follows them begins a line. -/
def Settles (place : Place) (pieces : List Piece) : Prop :=
  placeBehind? first place pieces = some .code ∨ placeBehind? first place pieces = some .comment

/-- The pieces may stand behind code and behind a comment. -/
def Follows (pieces : List Piece) : Prop :=
  Settles first .code pieces ∧ Settles first .comment pieces

end Reading

section Laws

variable {first : Position → String → Bool} {place : Place} {piece : Piece}
variable {pieces more : List Piece}

namespace Piece

@[simp] theorem isCode_token (t : Token) : t.piece.isCode = true := by rfl

@[simp] theorem isCode_text (s : String) : (text s).isCode = true := by rfl

@[simp] theorem isCode_indent (levels : Nat) : (indent levels).isCode = true := by rfl

@[simp] theorem isCode_written (position : Position) (s : String) :
    (written position s).isCode = true := by rfl

@[simp] theorem isCode_helper (position : Position) (h : Helper) :
    (helper position h).isCode = true := by rfl

@[simp] theorem isCode_tokenOr (fallback : String) (t? : Option Token) :
    (Token.pieceOr fallback t?).isCode = true := by
  cases t? <;> rfl

@[simp] theorem isCode_literalPiece (t : Token) : (Expression.literalPiece t).isCode = true := by
  unfold Expression.literalPiece
  split <;> rfl

theorem isCode_of_isFiller (h : piece.isFiller = true) : piece.isCode = true := by
  cases piece with
  | comment | commentedOut => cases h
  | _ => rfl

theorem follow_of_isCode (h : piece.isCode = true) : piece.follow first .code = some .code := by
  cases piece with
  | comment | commentedOut => cases h
  | _ => rfl

theorem follow_shift (levels : Nat) :
    (piece.shift levels).follow first place = piece.follow first place := by
  cases place <;> cases piece <;> rfl

end Piece

@[simp] theorem placeBehind?_cons : placeBehind? first place (piece :: pieces) =
    (piece.follow first place).bind (placeBehind? first · pieces) := rfl

@[simp] theorem placeBehind?_append : placeBehind? first place (pieces ++ more) =
    (placeBehind? first place pieces).bind (placeBehind? first · more) :=
  List.foldlM_append

theorem placeBehind?_shift (levels : Nat) :
    placeBehind? first place (pieces.map (Piece.shift levels)) =
      placeBehind? first place pieces := by
  simp [placeBehind?, List.foldlM_map, Piece.follow_shift]

theorem settles_nested : Settles first place (nested pieces) ↔ Settles first place pieces := by
  rw [Settles, nested, placeBehind?_shift, Settles]

theorem Settles.append (h : Settles first place pieces) (hmore : Follows first more) :
    Settles first place (pieces ++ more) := by
  rw [Settles, placeBehind?_append]
  rcases h with h | h <;> rw [h]
  · exact hmore.1
  · exact hmore.2

theorem Follows.append (h : Follows first pieces) (hmore : Follows first more) :
    Follows first (pieces ++ more) :=
  ⟨h.1.append hmore, h.2.append hmore⟩

theorem follows_nil : Follows first [] := ⟨.inl rfl, .inr rfl⟩

theorem whole_nil : Whole first [] := rfl

@[simp] theorem whole_cons (h : piece.isCode = true) :
    Whole first (piece :: pieces) ↔ Whole first pieces := by
  rw [Whole, placeBehind?_cons, Piece.follow_of_isCode h, Whole, Option.bind_some]

@[simp] theorem whole_append (h : Whole first pieces) :
    Whole first (pieces ++ more) ↔ Whole first more := by
  rw [Whole, placeBehind?_append, h, Whole, Option.bind_some]

/-- Behind a line break there is code, whatever stands before it. -/
theorem whole_append_lineBreak (h : Settles first .code pieces) :
    Whole first (pieces ++ .lineBreak :: more) ↔ Whole first more := by
  rw [Whole, placeBehind?_append]
  rcases h with h | h <;> rw [h] <;> rfl

@[simp] theorem whole_append_newLine (h : Settles first .code pieces) :
    Whole first (pieces ++ (newLine ++ more)) ↔ Whole first more :=
  whole_append_lineBreak h

end Laws

variable {first : Position → String → Bool}

/-! ## Sequences -/

/-- An item may stand in a sequence; a comment may stand behind another one on the same line. -/
structure Item.Readable (first : Position → String → Bool) (item : Item) : Prop where
  settles : Settles first .code item.pieces
  joined : item.isComment = true → placeBehind? first .space item.pieces = some .comment

namespace Item

variable {item : Item}

theorem Readable.newLine (h : item.Readable first) : Follows first (newLine ++ item.pieces) :=
  ⟨h.settles, h.settles⟩

theorem Readable.blankLine (h : item.Readable first) :
    Follows first (.lineBreak :: Piece.newLine ++ item.pieces) :=
  ⟨h.settles, h.settles⟩

theorem Readable.space (h : item.Readable first) (hcomment : item.isComment = true) :
    Follows first ([.text " "] ++ item.pieces) :=
  ⟨h.settles, .inr (h.joined hcomment)⟩

/-- What stands before an item of a block or of an array. -/
theorem Readable.start (h : item.Readable first) (joins : Bool)
    (hjoins : joins = true → item.isComment = true) :
    Follows first ((if joins then [.text " "] else Piece.newLine) ++ item.pieces) := by
  cases joins with
  | false => exact h.newLine
  | true => exact h.space (hjoins rfl)

/-- A comma is written behind code only. -/
theorem Readable.comma (h : item.Readable first)
    (hcode : item.isComment = false → Whole first item.pieces) (rest : List Item) :
    Readable first { item with pieces := item.pieces ++ Layout.comma item rest } := by
  cases hcomment : item.isComment with
  | true =>
    -- behind a comment a comma would be lost
    have hnone : Layout.comma item rest = [] := by simp [Layout.comma, hcomment]
    rw [hnone, List.append_nil]
    exact h
  | false =>
    have hcomma : Whole first (Layout.comma item rest) := by
      unfold Layout.comma
      split <;> rfl
    refine ⟨.inl ((whole_append (hcode hcomment)).mpr hcomma), fun htrue => ?_⟩
    exact absurd (hcomment.symm.trans htrue) Bool.false_ne_true

end Item

namespace Layout

variable {items : List Item}

theorem follows_blockItems (ownerLine? : Option Nat) (previous? : Option Range)
    (h : ∀ item ∈ items, item.Readable first) :
    Follows first (blockItems ownerLine? previous? items) := by
  induction items generalizing previous? with
  | nil => exact follows_nil
  | cons item rest ih =>
    obtain ⟨hitem, hrest⟩ := List.forall_mem_cons.mp h
    refine (hitem.start _ fun hjoins => ?_).append (ih (some item.range) hrest)
    exact (Bool.and_eq_true_iff.mp hjoins).1

theorem settles_block (ownerLine? : Option Nat) (h : ∀ item ∈ items, item.Readable first) :
    Settles first .code (block ownerLine? items) :=
  settles_nested.mpr (follows_blockItems ownerLine? none h).1

/-- An empty block ends in code, and a line break follows any other. -/
theorem whole_branch {block : List Piece} (h : Settles first .code block) :
    Whole first (branch block) := by
  unfold branch
  split
  next hempty =>
    rw [List.isEmpty_iff.mp hempty]
    rfl
  next => exact (whole_append_lineBreak h).mpr whole_nil

theorem follows_separator {item : Item} (h : item.Readable first) (previous : Item)
    (next? : Option Item) : Follows first (separator previous item next? ++ item.pieces) := by
  unfold separator
  split
  next hjoins => exact h.space (Bool.and_eq_true_iff.mp hjoins).1
  next =>
    split
    · exact h.blankLine
    · exact h.newLine

theorem follows_bodyItems (previous : Item) (h : ∀ item ∈ items, item.Readable first) :
    Follows first (bodyItems previous items) := by
  induction items generalizing previous with
  | nil => exact follows_nil
  | cons item rest ih =>
    obtain ⟨hitem, hrest⟩ := List.forall_mem_cons.mp h
    exact (follows_separator hitem previous rest.head?).append (ih item hrest)

theorem settles_body (h : ∀ item ∈ items, item.Readable first) :
    Settles first .code (body items) := by
  cases items with
  | nil => exact .inl rfl
  | cons item rest =>
    obtain ⟨hitem, hrest⟩ := List.forall_mem_cons.mp h
    exact hitem.settles.append (follows_bodyItems item hrest)

theorem follows_arrayItems (previous : Range) (h : ∀ item ∈ items, item.Readable first)
    (hcode : ∀ item ∈ items, item.isComment = false → Whole first item.pieces) :
    Follows first (arrayItems previous items) := by
  induction items generalizing previous with
  | nil => exact follows_nil
  | cons item rest ih =>
    obtain ⟨hitem, hrest⟩ := List.forall_mem_cons.mp h
    obtain ⟨hwhole, hwholes⟩ := List.forall_mem_cons.mp hcode
    have hstart := (hitem.comma hwhole rest).start (joins previous item) fun hjoins =>
      (Bool.and_eq_true_iff.mp hjoins).1
    have hall := hstart.append (ih item.range hrest hwholes)
    rw [arrayItems]
    simpa using hall

theorem whole_array (opening closing : Token) (h : ∀ item ∈ items, item.Readable first)
    (hcode : ∀ item ∈ items, item.isComment = false → Whole first item.pieces) :
    Whole first (array opening items closing) := by
  cases items with
  | nil => rfl
  | cons item rest =>
    have hitems := settles_nested.mpr (follows_arrayItems opening.range h hcode).1
    simp [array, hitems, whole_nil]

/-- The members of a record have the line breaks behind them that the elements of an array have
before them. -/
theorem lineBreak_recordItems (previous : Range) (items : List Item) :
    (if items.head?.any (joins previous) then [] else [.lineBreak]) ++
      recordItems previous items = arrayItems previous items ++ [.lineBreak] := by
  induction items generalizing previous with
  | nil => rfl
  | cons item rest ih =>
    rw [arrayItems, recordItems]
    -- the break behind `item` is the start of the line of what follows it
    simp only [List.append_assoc, ih]
    cases hjoins : joins previous item <;> simp [hjoins, newLine]

/-- So both kinds of literals are laid out alike. -/
theorem record_eq_array (opening : Token) (items : List Item) (closing : Token) :
    record opening items closing = array opening items closing := by
  cases items with
  | nil => rfl
  | cons item rest =>
    -- the one break that is written outside of the nesting looks the same inside of it
    have hbreaks := congrArg nested (lineBreak_recordItems opening.range (item :: rest))
    cases hjoins : joins opening.range item <;>
      simp_all [record, array, nested, newLine, Piece.shift]

end Layout

/-! ## Skeletons -/

/-- What the owner of a part relies on. A comment expression does not give it. -/
def Site.Firm (first : Position → String → Bool) (site : Site) : Prop :=
  match site.tree with
  | .expression _ => Whole first site.emit
  | .statement s => Settles first .code site.emit ∧
      (s.isComment = true → placeBehind? first .space site.emit = some .comment)
  | .block _ => Settles first .code site.emit
  | .body _ => Settles first .code site.emit

namespace Slot

/-- The part of the entry, if it has one, is as its owner relies on. -/
def Firm (first : Position → String → Bool) : Slot → Prop
  | own _ => True
  | part site _ => site.Firm first

/-- What is written for the entry may stand among code. -/
def IsWhole (first : Position → String → Bool) : Slot → Prop
  | own piece => piece.isCode = true
  | part site _ => Whole first site.emit

variable {scope : Scope} {e : Expression}

@[simp] theorem firm_own (piece : Piece) : (own piece).Firm first := trivial

@[simp] theorem firm_token (t : Token) : (token t).Firm first := trivial

@[simp] theorem firm_operand : (operand scope e).Firm first ↔ Whole first (e.emit scope) := .rfl

@[simp] theorem firm_deferred : (deferred scope e).Firm first ↔ Whole first (e.emit scope) := .rfl

@[simp] theorem firm_block (ownerLine : Nat) (b : Block) :
    (block scope ownerLine b).Firm first ↔ Settles first .code (b.emit scope ownerLine) := .rfl

@[simp] theorem isWhole_own (piece : Piece) : (own piece).IsWhole first ↔ piece.isCode = true :=
  .rfl

@[simp] theorem isWhole_token (t : Token) : (token t).IsWhole first := rfl

@[simp] theorem isWhole_operand : (operand scope e).IsWhole first ↔ Whole first (e.emit scope) :=
  .rfl

@[simp] theorem isWhole_deferred :
    (deferred scope e).IsWhole first ↔ Whole first (e.emit scope) :=
  .rfl

end Slot

/-- Everything between the entries of a skeleton is code. -/
theorem Woven.whole {i j : Nat} {pieces : List Piece} {slots : List Slot}
    (h : Woven i pieces slots j) (hslots : ∀ slot ∈ slots, slot.IsWhole first) :
    Whole first pieces := by
  induction h with
  | nil => rfl
  | opening _ ih => exact ih hslots
  | closing _ ih => exact ih hslots
  | filler hpiece _ ih => exact (whole_cons (Piece.isCode_of_isFiller hpiece)).mpr (ih hslots)
  | own hpiece _ ih =>
    obtain ⟨hcode, hrest⟩ := List.forall_mem_cons.mp hslots
    exact (whole_cons hcode).mpr (ih hrest)
  | part site levels _ ih =>
    obtain ⟨hsite, hrest⟩ := List.forall_mem_cons.mp hslots
    exact (whole_append ((placeBehind?_shift levels).trans hsite)).mpr (ih hrest)

/-! ## Nodes -/

namespace Comment

theorem placeBehind?_others (others : List Token) :
    placeBehind? first .comment
      (others.flatMap fun token => newLine ++ [.comment token.start token.text]) =
      some .comment := by
  induction others with
  | nil => rfl
  | cons token rest ih => exact ih

theorem placeBehind?_code (c : Comment) : placeBehind? first .code c.pieces = some .comment :=
  placeBehind?_others c.others

theorem placeBehind?_space {c : Comment} (h : first c.first.start c.first.text = true) :
    placeBehind? first .space c.pieces = some .comment := by
  have hfirst : (Piece.comment c.first.start c.first.text).follow first .space = some .comment :=
    if_pos h
  rw [pieces, placeBehind?_cons, hfirst]
  exact placeBehind?_others c.others

end Comment

section Nodes

variable {scope : Scope}

theorem elementItems_eq_map (elements : List Expression) :
    elementItems scope elements = elements.map fun e =>
      ⟨e.range, if e.isComment then .comment else .code, e.emit scope⟩ := by
  induction elements with
  | nil => rfl
  | cons e rest ih => rw [elementItems, ih, List.map_cons]

theorem statementItems_eq_map (statements : List Statement) :
    statementItems scope statements = statements.map fun s =>
      ⟨s.range, s.role, s.emit scope⟩ := by
  induction statements with
  | nil => rfl
  | cons s rest ih => rw [statementItems, ih, List.map_cons]

theorem readable_statementItems {statements : List Statement}
    (h : ∀ slot ∈ statements.map (Slot.statement scope), slot.Firm first) :
    ∀ item ∈ statementItems scope statements, item.Readable first := by
  intro item hitem
  rw [statementItems_eq_map] at hitem
  obtain ⟨s, hs, rfl⟩ := List.mem_map.mp hitem
  obtain ⟨hsettles, hjoined⟩ := h _ (List.mem_map_of_mem hs)
  refine ⟨hsettles, fun hcomment => hjoined ?_⟩
  cases s with
  | comment => rfl
  | _ => cases hcomment

theorem readable_memberItems {members : List Member}
    (h : ∀ slot ∈ members.flatMap (Member.slots scope), slot.Firm first)
    (hfirst : ∀ c, .comment c ∈ members → first c.first.start c.first.text = true) :
    ∀ item ∈ memberItems scope members, item.Readable first ∧
      (item.isComment = false → Whole first item.pieces) := by
  induction members with
  | nil => simp [memberItems]
  | cons member rest ih =>
    rw [List.flatMap_cons, List.forall_mem_append] at h
    obtain ⟨hmember, hrest⟩ := h
    specialize ih hrest fun c hc => hfirst c (List.mem_cons_of_mem _ hc)
    cases member with
    | pair key colon value =>
      have hvalue : Whole first (value.emit scope) := by simpa [Member.slots] using hmember
      have hpair : Whole first ([key.piece, colon.piece, .text " "] ++ value.emit scope) := hvalue
      rw [memberItems, List.forall_mem_cons]
      refine ⟨⟨⟨.inl hpair, fun hcomment => ?_⟩, fun _ => hpair⟩, ih⟩
      cases hcomment
    | comment c =>
      have hspace := c.placeBehind?_space (hfirst c List.mem_cons_self)
      rw [memberItems, List.forall_mem_cons]
      refine ⟨⟨⟨.inr c.placeBehind?_code, fun _ => hspace⟩, fun hcode => ?_⟩, ih⟩
      cases hcode

theorem isWhole_typeClause (clause? : Option TypeClause) :
    ∀ slot ∈ TypeClause.slots clause?, slot.IsWhole first := by
  cases clause? <;> simp [TypeClause.slots]

theorem Parameter.isWhole {p : Parameter} (h : ∀ slot ∈ p.slots scope, slot.Firm first) :
    ∀ slot ∈ p.slots scope, slot.IsWhole first := by
  obtain ⟨name, default?, type?⟩ := p
  have htype : ∀ slot ∈ TypeClause.slots type?, slot.IsWhole first := isWhole_typeClause type?
  cases default? <;> simp_all [slots, or_imp, forall_and]

theorem FunctionLiteral.whole {name? : Option Piece} {f : FunctionLiteral}
    (hname : ∀ name ∈ name?, name.isCode = true)
    (h : ∀ slot ∈ f.slots scope name?, slot.Firm first) : Whole first (f.emit scope name?) := by
  obtain ⟨keyword, opening, parameters, closing, returnType?, body, endToken⟩ := f
  have hparameters : Whole first (separated ", " (emitParameters scope parameters)) := by
    apply ((wovenAll_emitParameters scope parameters).separated ", " rfl).whole
    intro slot hslot
    obtain ⟨p, hp, hslot⟩ := List.mem_flatMap.mp hslot
    refine Parameter.isWhole (fun slot hslot => h slot ?_) slot hslot
    have hmem := List.mem_flatMap_of_mem hp hslot
    simp [slots, hmem]
  have htype : Whole first (TypeClause.pieces returnType?) :=
    (woven_typeClause returnType?).whole (isWhole_typeClause returnType?)
  simp only [slots, List.forall_mem_append, List.forall_mem_cons, Slot.firm_block] at h
  obtain ⟨-, hbody, -⟩ := h
  cases name? with
  | none => simp [emit, hparameters, htype, hbody, whole_nil]
  | some name => simp [emit, hparameters, htype, hbody, hname, whole_nil]

theorem TemplatePart.isWhole {p : TemplatePart} (h : ∀ slot ∈ p.slots scope, slot.Firm first) :
    ∀ slot ∈ p.slots scope, slot.IsWhole first := by
  cases p with
  | text token =>
    intro slot hslot
    obtain ⟨line, -, rfl⟩ := List.mem_map.mp hslot
    rfl
  | expression e => simpa [slots] using h

/-- The comments that an expression writes itself. -/
def Expression.comments : Expression → List Comment
  | .record _ members _ => members.filterMap fun
    | .pair .. => none
    | .comment c => some c
  | .comment c => [c]
  | _ => []

theorem Expression.whole_array {opening closing : Token} {elements : List Expression}
    (hcode : ∀ e ∈ elements, e.isComment = false → Whole first (e.emit scope))
    (hfirst : ∀ c, .comment c ∈ elements → first c.first.start c.first.text = true) :
    Whole first (emit scope (.array opening elements closing)) := by
  rw [emit, elementItems_eq_map]
  apply Layout.whole_array
  · intro item hitem
    obtain ⟨e, he, rfl⟩ := List.mem_map.mp hitem
    cases hcomment : e.isComment with
    | false => exact ⟨.inl (hcode e he hcomment), fun h => nomatch h⟩
    | true =>
      cases e with
      | comment c => exact ⟨.inr c.placeBehind?_code, fun _ => c.placeBehind?_space (hfirst c he)⟩
      | _ => cases hcomment
  · intro item hitem
    obtain ⟨e, he, rfl⟩ := List.mem_map.mp hitem
    cases hcomment : e.isComment with
    | false => exact fun _ => hcode e he hcomment
    | true => exact fun h => nomatch h

theorem Expression.whole {e : Expression} (h : ∀ slot ∈ e.slots scope, slot.Firm first)
    (hfirst : ∀ c ∈ e.comments, first c.first.start c.first.text = true)
    (hcomment : e.isComment = false)
    (harray : ∀ opening elements closing, e ≠ .array opening elements closing) :
    Whole first (e.emit scope) := by
  -- where nothing is laid out in lines, the skeleton says enough about the text
  have hwoven := e.woven scope
  cases e with
  | comment => cases hcomment
  | array opening elements closing => exact absurd rfl (harray opening elements closing)
  | function f => exact FunctionLiteral.whole (by simp) h
  | record opening members closing =>
    have hmembers : ∀ slot ∈ members.flatMap (Member.slots scope), slot.Firm first :=
      fun slot hslot => h slot (by simp [slots, hslot])
    have hitems := readable_memberItems hmembers fun c hc =>
      hfirst c (List.mem_filterMap.mpr ⟨_, hc, rfl⟩)
    rw [emit, Layout.record_eq_array]
    exact Layout.whole_array opening closing (fun item hitem => (hitems item hitem).1)
      fun item hitem => (hitems item hitem).2
  | template opening parts closing =>
    apply hwoven.whole
    rw [slots] at h ⊢
    split at h
    next hnone => simp [hnone]
    next hsome =>
      rw [if_neg hsome]
      intro slot hslot
      obtain ⟨p, hp, hslot⟩ := List.mem_flatMap.mp hslot
      refine TemplatePart.isWhole (fun slot hslot => h slot ?_) slot hslot
      exact List.mem_flatMap_of_mem hp hslot
  | conditional | coalesce =>
    apply hwoven.whole
    rw [slots] at h ⊢
    split at h <;> simp_all [or_imp, forall_and]
  | member object dot name =>
    apply hwoven.whole
    rw [slots] at h ⊢
    cases hflat : flattened? scope (.member object dot name) with
    | none => simp_all
    | some piece =>
      obtain ⟨position, text, rfl⟩ := eq_written_of_flattened? hflat
      simp
  | _ =>
    apply hwoven.whole
    simp_all [slots, or_imp, forall_and]

theorem whole_elseIfs {clauses : List ElseIf}
    (h : ∀ slot ∈ clauses.flatMap (ElseIf.slots scope), slot.Firm first) :
    Whole first (emitElseIfs scope clauses) := by
  induction clauses with
  | nil => rfl
  | cons clause rest ih =>
    obtain ⟨keyword, condition, then?, body⟩ := clause
    rw [List.flatMap_cons, List.forall_mem_append] at h
    obtain ⟨hclause, hrest⟩ := h
    simp only [ElseIf.slots, List.forall_mem_append, List.forall_mem_cons, Slot.firm_block,
      Slot.firm_operand] at hclause
    obtain ⟨⟨-, hcondition, -⟩, hbody, -⟩ := hclause
    simp [emitElseIfs, hcondition, Layout.whole_branch hbody, ih hrest]

theorem Assignment.whole {a : Assignment} (h : ∀ slot ∈ a.slots scope, slot.Firm first) :
    Whole first (a.emit scope) := by
  obtain ⟨name, operator, value⟩ := a
  simpa [slots, emit] using h

theorem whole_emitItems {items : List PrintItem}
    (h : ∀ slot ∈ items.flatMap (PrintItem.slots scope), slot.Firm first) :
    Whole first (separated " ; " (emitItems scope items)) := by
  apply ((wovenAll_emitItems scope items).separated " ; " rfl).whole
  intro slot hslot
  have hfirm := h slot hslot
  obtain ⟨item, -, hslot⟩ := List.mem_flatMap.mp hslot
  cases item with
  | separator => cases hslot
  | expression e =>
    obtain rfl := List.mem_singleton.mp hslot
    exact hfirm

theorem Statement.whole_branch {keyword : Token} {condition : Expression} {then? : Option Token}
    {body : Block} {elseIfs : List ElseIf} {else? : Option Else} {end? : Option Token}
    (h : ∀ slot ∈ slots scope (.branch keyword condition then? body elseIfs else? end?),
      slot.Firm first) :
    Whole first (emit scope (.branch keyword condition then? body elseIfs else? end?)) := by
  simp only [slots, List.forall_mem_append, List.forall_mem_cons, Slot.firm_block,
    Slot.firm_operand] at h
  obtain ⟨⟨⟨⟨-, hcondition, -⟩, hbody, hclauses⟩, helse⟩, -⟩ := h
  have hbranch := Layout.whole_branch hbody
  cases else? with
  | none => simp [emit, hcondition, hbranch, whole_elseIfs hclauses, whole_nil]
  | some clause =>
    obtain ⟨elseToken, otherwise⟩ := clause
    have hotherwise : Settles first .code
        (otherwise.emit scope (Else.mk elseToken otherwise).range.start.line) := by
      simpa [Else.slots] using helse
    simp [emit, hcondition, hbranch, whole_elseIfs hclauses, Layout.whole_branch hotherwise,
      whole_nil]

theorem Statement.whole_forLoop {keyword : Token} {counter : Assignment} {toToken : Token}
    {limit : Expression} {step? : Option ForStep} {body : Block} {endToken : Token}
    (h : ∀ slot ∈ slots scope (.forLoop keyword counter toToken limit step? body endToken),
      slot.Firm first) :
    Whole first (emit scope (.forLoop keyword counter toToken limit step? body endToken)) := by
  simp only [slots, List.forall_mem_append, List.forall_mem_cons, Slot.firm_block,
    Slot.firm_operand] at h
  obtain ⟨⟨⟨-, hcounter⟩, -, hlimit, hstep⟩, hbody, -⟩ := h
  have hbranch := Layout.whole_branch hbody
  cases step? with
  | none => simp [emit, counter.whole hcounter, hlimit, hbranch, whole_nil]
  | some step =>
    obtain ⟨stepToken, amount⟩ := step
    have hamount : Whole first (amount.emit scope) := by simpa [ForStep.slots] using hstep
    simp [emit, counter.whole hcounter, hlimit, hamount, hbranch, whole_nil]

/-- Only comments, imports and namespaces may end in a comment. -/
theorem Statement.settles {s : Statement} (h : ∀ slot ∈ s.slots scope, slot.Firm first) :
    Settles first .code (s.emit scope) := by
  cases s with
  | comment c => exact .inr c.placeBehind?_code
  | importFile keyword path => exact .inr rfl
  | namespaceBlock keyword name body endToken =>
    exact Layout.settles_body (readable_statementItems h)
  | function name f => exact .inl (FunctionLiteral.whole (by simp) h)
  | assignment a => exact .inl (a.whole h)
  | branch => exact .inl (whole_branch h)
  | forLoop => exact .inl (whole_forLoop h)
  | print keyword items =>
    rw [slots, List.forall_mem_cons] at h
    refine .inl (?_ : Whole first _)
    rw [emit]
    split
    · simp [whole_nil]
    · simpa using whole_emitItems h.2
  | returning keyword value? =>
    refine .inl (?_ : Whole first _)
    cases value? <;> simp_all [slots, emit, whole_nil]
  | _ =>
    refine .inl (?_ : Whole first _)
    simp_all [slots, emit, or_imp, forall_and, whole_nil, Layout.whole_branch]

end Nodes

end Downlevel
