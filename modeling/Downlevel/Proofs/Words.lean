import Downlevel.Proofs.LineEnds
import Downlevel.Text.Blank

/-!
# Words stay apart

What is emitted is a sequence of texts, and a word at the end of one must not run into a word at the
start of the next. What stands before a text may come from any other node, or from nothing at all:
an indentation may be empty, and so may be the body of a namespace.

The pieces are read here from left to right, and the only thing to remember is whether the last text
ended in a word: `WordReader.read` has no answer where two words meet. Pieces are `Apart` if they
can be read from the start of a line on, and `Loose` if they can be read behind a word as well.

One line break is not always written, the one behind an empty block. It is read as if it were, but
it has to stand behind a *header*: what a clause writes before its block.
-/

namespace Downlevel

open Piece (newLine nested separated)

/-! ## Characters of words -/

/-- The characters that words consist of: letters, digits and underscores. Which characters outside
of ASCII are letters or digits is left open, but none of them is blank. -/
structure WordClass where
  contains : Char → Bool
  ascii : ∀ c, c.toNat < 128 → contains c = (c.isAlphanum || c == '_')
  blank : ∀ c, Text.isBlank c = true → contains c = false

namespace Text

/-- An ASCII character of no word. -/
def isBoundary (c : Char) : Bool := c.toNat < 128 && !(c.isAlphanum || c == '_')

def startsApart (s : String) : Bool := s.toList.head?.any isBoundary

def endsApart (s : String) : Bool := s.toList.getLast?.any isBoundary

end Text

namespace WordClass

/-- The words of ASCII. -/
def plain : WordClass where
  contains c := c.isAlphanum || c == '_'
  ascii _ _ := rfl
  blank c hblank := by
    rw [Bool.eq_false_iff]
    intro hword
    rw [Bool.or_eq_true, beq_iff_eq] at hword
    rcases hword with hword | rfl
    · change ((decide (65 ≤ c.val ∧ c.val ≤ 90) || (97 ≤ c.val && c.val ≤ 122)) ||
        (48 ≤ c.val && c.val ≤ 57)) = true at hword
      simp only [Bool.or_eq_true, Bool.and_eq_true, decide_eq_true_eq,
        UInt32.le_iff_toNat_le] at hword
      change ((65 ≤ c.toNat ∧ c.toNat ≤ 90) ∨ (97 ≤ c.toNat ∧ c.toNat ≤ 122)) ∨
        (48 ≤ c.toNat ∧ c.toNat ≤ 57) at hword
      simp only [Text.isBlank, Text.blankIntervals, List.any_cons, List.any_nil, Bool.or_eq_true,
        Bool.and_eq_true, decide_eq_true_eq, Bool.false_eq_true, or_false] at hblank
      omega
    · revert hblank
      decide

variable (w : WordClass)

/-- The text starts with a character of a word. -/
def startsWord (s : String) : Bool := s.toList.head?.any w.contains

/-- The text ends with a character of a word. -/
def endsWord (s : String) : Bool := s.toList.getLast?.any w.contains

/-- Reads a text behind a word or not, and says whether it ends in a word. There is no answer if it
runs into the word before it. -/
def follow (behind : Bool) (s : String) : Option Bool :=
  if s = "" then some behind
  else if behind && w.startsWord s then none
  else some (w.endsWord s)

variable {w} {s : String} {behind : Bool}

theorem contains_of_isBoundary {c : Char} (h : Text.isBoundary c = true) :
    w.contains c = false := by
  rw [Text.isBoundary, Bool.and_eq_true, decide_eq_true_eq] at h
  rw [w.ascii c h.1]
  simpa using h.2

theorem any_contains_of_isBoundary {c? : Option Char} (h : c?.any Text.isBoundary = true) :
    c?.any w.contains = false := by
  cases c? with
  | none => rfl
  | some c => exact contains_of_isBoundary h

theorem startsWord_of_startsApart (h : Text.startsApart s = true) : w.startsWord s = false :=
  any_contains_of_isBoundary h

theorem endsWord_of_endsApart (h : Text.endsApart s = true) : w.endsWord s = false :=
  any_contains_of_isBoundary h

theorem any_contains_of_forall {c? : Option Char} (h : ∀ c ∈ c?, w.contains c = false) :
    c?.any w.contains = false := by
  cases c? with
  | none => rfl
  | some c => exact h c rfl

/-- A text without characters of words starts with none and ends with none. -/
theorem startsWord_of_not_contains (h : ∀ c ∈ s.toList, w.contains c = false) :
    w.startsWord s = false :=
  any_contains_of_forall fun c hc => h c (List.mem_of_head? hc)

theorem endsWord_of_not_contains (h : ∀ c ∈ s.toList, w.contains c = false) :
    w.endsWord s = false :=
  any_contains_of_forall fun c hc => h c (List.mem_of_getLast? hc)

theorem not_contains_of_blank (h : s.toList.all Text.isBlank = true) :
    ∀ c ∈ s.toList, w.contains c = false :=
  fun c hc => w.blank c (List.all_eq_true.mp h c hc)

/-- A word cannot be read behind a word. -/
theorem follow_true_of_startsWord (h : w.startsWord s = true) : w.follow true s = none := by
  have hne : s ≠ "" := by
    rintro rfl
    cases h
  simp [follow, hne, h]

theorem follow_of_endsWord {next : Bool} (h : w.endsWord s = true)
    (hfollow : w.follow behind s = some next) : next = true := by
  have hne : s ≠ "" := by
    rintro rfl
    cases h
  rw [follow, if_neg hne] at hfollow
  split at hfollow
  · cases hfollow
  · rw [h] at hfollow
    exact (Option.some.inj hfollow).symm

/-- Behind no word any text can be read. -/
theorem isSome_follow_false (w : WordClass) (s : String) : (w.follow false s).isSome = true := by
  unfold follow
  split <;> rfl

theorem follow_of_startsWord (hne : s ≠ "") (h : w.startsWord s = false) :
    w.follow behind s = some (w.endsWord s) := by
  simp [follow, hne, h]

end WordClass

/-! ## Reading pieces -/

/-- How pieces are read. -/
structure WordReader where
  words : WordClass
  /-- The name of the library that helpers are called in. -/
  library : String
  /-- The pieces are what a clause writes before its block, and the block is empty. -/
  IsHeader : List Piece → Prop
  isHeader_shift : ∀ header levels, IsHeader header → IsHeader (header.map (Piece.shift levels))

namespace Piece

/-- The text that is read for a piece. An indentation may be empty. -/
def said (library : String) : Piece → String
  | written _ s => s
  | comment _ s => s
  | commentedOut _ s => s
  | helper _ h => h.callName library
  | text s => s
  | lineBreak => "\n"
  | emptyBlockBreak => "\n"
  | indent _ => ""

/-- The piece is the line break behind an empty block. -/
def isEmptyBreak : Piece → Bool
  | emptyBlockBreak => true
  | _ => false

theorem said_shift (library : String) (piece : Piece) (levels : Nat) :
    (piece.shift levels).said library = piece.said library := by
  cases piece <;> rfl

theorem isEmptyBreak_pieceOr (fallback : String) (t? : Option Token) :
    (Token.pieceOr fallback t?).isEmptyBreak = false := by
  cases t? <;> rfl

/-- An empty block's line break is not moved, and nothing becomes one. -/
theorem shift_eq_emptyBlockBreak {piece : Piece} {levels : Nat}
    (h : piece.shift levels = emptyBlockBreak) : piece = emptyBlockBreak := by
  cases piece <;> first | rfl | cases h

end Piece

namespace WordReader

variable (r : WordReader)

/-- Whether one is behind a word when the pieces have been read. -/
def read (behind : Bool) (pieces : List Piece) : Option Bool :=
  pieces.foldlM (fun behind piece => r.words.follow behind (piece.said r.library)) behind

/-- Every break behind an empty block stands behind a header. -/
def Headed (pieces : List Piece) : Prop :=
  ∀ before after, pieces = before ++ .emptyBlockBreak :: after →
    ∃ header, r.IsHeader header ∧ header <:+ before

/-- No two words meet in the pieces, if none stands before them, and empty blocks have headers. -/
structure Apart (pieces : List Piece) : Prop where
  reads : (r.read false pieces).isSome = true
  headed : r.Headed pieces

/-- The pieces do not start with a word, either. -/
structure Loose (pieces : List Piece) : Prop extends r.Apart pieces where
  behind : (r.read true pieces).isSome = true

/-- Words before and behind the piece do not meet. -/
structure Separates (piece : Piece) : Prop where
  isEmptyBreak : piece.isEmptyBreak = false
  said_ne : piece.said r.library ≠ ""
  startsWord : r.words.startsWord (piece.said r.library) = false
  endsWord : r.words.endsWord (piece.said r.library) = false

variable {r} {piece : Piece} {pieces more rest : List Piece} {behind : Bool}

/-! ### Composition -/

theorem read_cons : r.read behind (piece :: rest) =
    (r.words.follow behind (piece.said r.library)).bind (r.read · rest) := rfl

theorem read_append : r.read behind (pieces ++ more) =
    (r.read behind pieces).bind (r.read · more) :=
  List.foldlM_append

theorem headed_of_not_mem (h : .emptyBlockBreak ∉ pieces) : r.Headed pieces := by
  rintro before after rfl
  simp at h

theorem headed_singleton (h : piece.isEmptyBreak = false) : r.Headed [piece] := by
  apply headed_of_not_mem
  rw [List.mem_singleton]
  rintro rfl
  cases h

theorem Headed.append (h : r.Headed pieces) (hmore : r.Headed more) :
    r.Headed (pieces ++ more) := by
  intro before after heq
  -- the break is one of the others or one of the first pieces
  rcases List.append_eq_append_iff.mp heq with ⟨between, rfl, hmiddle⟩ | ⟨between, rfl, hmiddle⟩
  · obtain ⟨header, hheader, hsuffix⟩ := hmore between after hmiddle
    exact ⟨header, hheader, hsuffix.trans (List.suffix_append pieces between)⟩
  · cases between with
    | nil =>
      obtain ⟨header, hheader, hsuffix⟩ := hmore [] after hmiddle.symm
      exact ⟨header, hheader, hsuffix.trans List.nil_suffix⟩
    | cons first between =>
      obtain ⟨rfl, -⟩ := List.cons.inj hmiddle
      exact h before between rfl

/-- A header may have a break of its own behind it. -/
theorem Headed.concat (h : r.Headed pieces) (hheader : r.IsHeader pieces) :
    r.Headed (pieces ++ [.emptyBlockBreak]) := by
  intro before after heq
  rcases List.append_eq_append_iff.mp heq with ⟨between, rfl, hmiddle⟩ | ⟨between, rfl, hmiddle⟩
  · obtain rfl : between = [] := by
      cases between with
      | nil => rfl
      | cons => simp at hmiddle
    rw [List.append_nil]
    exact ⟨pieces, hheader, List.suffix_rfl⟩
  · cases between with
    | nil =>
      rw [List.append_nil] at hheader
      exact ⟨before, hheader, List.suffix_rfl⟩
    | cons first between =>
      obtain ⟨rfl, -⟩ := List.cons.inj hmiddle
      exact h before between rfl

theorem Apart.nil : r.Apart [] := ⟨rfl, headed_of_not_mem List.not_mem_nil⟩

theorem Loose.nil : r.Loose [] := ⟨.nil, rfl⟩

/-- What is loose can be read whether a word stands before it or not. -/
theorem Loose.isSome_bind (h : r.Loose more) {behind? : Option Bool} (hbehind : behind?.isSome) :
    (behind?.bind (r.read · more)).isSome = true := by
  obtain ⟨behind, rfl⟩ := Option.isSome_iff_exists.mp hbehind
  cases behind with
  | false => exact h.reads
  | true => exact h.behind

theorem Apart.append (h : r.Apart pieces) (hmore : r.Loose more) : r.Apart (pieces ++ more) where
  reads := by
    rw [read_append]
    exact hmore.isSome_bind h.reads
  headed := h.headed.append hmore.headed

theorem Loose.append (h : r.Loose pieces) (hmore : r.Loose more) : r.Loose (pieces ++ more) where
  toApart := h.toApart.append hmore
  behind := by
    rw [read_append]
    exact hmore.isSome_bind h.behind

theorem Apart.single (h : piece.isEmptyBreak = false) : r.Apart [piece] where
  reads := by
    rw [read_cons]
    exact Loose.nil.isSome_bind (WordClass.isSome_follow_false _ _)
  headed := headed_singleton h

/-- What follows a word has to be loose. -/
theorem Apart.cons (h : piece.isEmptyBreak = false) (hrest : r.Loose rest) :
    r.Apart (piece :: rest) :=
  (Apart.single h).append hrest

/-- Behind a text that ends in no word anything can stand. -/
theorem read_eq_false (hne : piece.said r.library ≠ "")
    (hstart : behind = true → r.words.startsWord (piece.said r.library) = false)
    (hend : r.words.endsWord (piece.said r.library) = false) :
    r.read behind (piece :: rest) = r.read false rest := by
  rw [read_cons, WordClass.follow, if_neg hne]
  cases behind with
  | false => simp [hend]
  | true => simp [hstart rfl, hend]

theorem Separates.loose (h : r.Separates piece) (hrest : r.Apart rest) :
    r.Loose (piece :: rest) where
  reads := by
    rw [read_eq_false h.said_ne (fun _ => h.startsWord) h.endsWord]
    exact hrest.reads
  headed := (headed_singleton h.isEmptyBreak).append hrest.headed
  behind := by
    rw [read_eq_false h.said_ne (fun _ => h.startsWord) h.endsWord]
    exact hrest.reads

/-- A text that ends in no word may stand before anything. -/
theorem Apart.cons_of_endsApart {s : String} (h : Text.endsApart s = true) (hrest : r.Apart rest) :
    r.Apart (.text s :: rest) where
  reads := by
    have hne : s ≠ "" := by
      rintro rfl
      cases h
    have hread : r.read false (.text s :: rest) = r.read false rest :=
      read_eq_false hne (fun hfalse => absurd hfalse Bool.false_ne_true)
        (WordClass.endsWord_of_endsApart h)
    rw [hread]
    exact hrest.reads
  headed := (headed_singleton rfl).append hrest.headed

/-- A text that starts with no word may stand behind anything. -/
theorem Loose.cons (h : piece.isEmptyBreak = false)
    (hstart : Text.startsApart (piece.said r.library) = true) (hrest : r.Loose rest) :
    r.Loose (piece :: rest) where
  toApart := .cons h hrest
  behind := by
    have hne : piece.said r.library ≠ "" := by
      intro hempty
      rw [hempty] at hstart
      cases hstart
    rw [read_cons, WordClass.follow_of_startsWord hne (WordClass.startsWord_of_startsApart hstart)]
    exact hrest.isSome_bind rfl

theorem Apart.indent (levels : Nat) (hrest : r.Apart rest) :
    r.Apart (.indent levels :: rest) where
  reads := hrest.reads
  headed := (headed_singleton rfl).append hrest.headed

/-! ### Separators -/

theorem separates_of_said {s : String} (hsaid : piece.said r.library = s)
    (hbreak : piece.isEmptyBreak = false) (hstart : Text.startsApart s = true)
    (hend : Text.endsApart s = true) : r.Separates piece where
  isEmptyBreak := hbreak
  said_ne := by
    rw [hsaid]
    rintro rfl
    cases hstart
  startsWord := by
    rw [hsaid]
    exact WordClass.startsWord_of_startsApart hstart
  endsWord := by
    rw [hsaid]
    exact WordClass.endsWord_of_endsApart hend

theorem separates_text {s : String} (hstart : Text.startsApart s = true)
    (hend : Text.endsApart s = true) : r.Separates (.text s) :=
  separates_of_said rfl rfl hstart hend

theorem space : r.Separates (.text " ") := separates_text (by decide) (by decide)

theorem comma : r.Separates (.text ", ") := separates_text (by decide) (by decide)

theorem lineBreak : r.Separates .lineBreak := by
  have hstart : Text.startsApart "\n" = true := by decide
  have hend : Text.endsApart "\n" = true := by decide
  exact separates_of_said rfl rfl hstart hend

theorem Loose.newLine (hrest : r.Apart rest) : r.Loose (newLine ++ rest) :=
  lineBreak.loose (.indent 0 hrest)

/-! ### Sequences -/

theorem read_shift (levels : Nat) (behind : Bool) :
    r.read behind (pieces.map (Piece.shift levels)) = r.read behind pieces := by
  simp [read, List.foldlM_map, Piece.said_shift]

theorem Headed.shift (h : r.Headed pieces) (levels : Nat) :
    r.Headed (pieces.map (Piece.shift levels)) := by
  intro before after heq
  obtain ⟨front, rest, rfl, rfl, hrest⟩ := List.map_eq_append_iff.mp heq
  obtain ⟨piece, back, rfl, hpiece, -⟩ := List.map_eq_cons_iff.mp hrest
  obtain rfl := Piece.shift_eq_emptyBlockBreak hpiece
  obtain ⟨header, hheader, hsuffix⟩ := h front back rfl
  exact ⟨_, r.isHeader_shift header levels hheader, hsuffix.map _⟩

theorem Apart.shift (h : r.Apart pieces) (levels : Nat) :
    r.Apart (pieces.map (Piece.shift levels)) where
  reads := by
    rw [read_shift]
    exact h.reads
  headed := h.headed.shift levels

theorem Loose.nested (h : r.Loose pieces) : r.Loose (nested pieces) where
  toApart := h.toApart.shift 1
  behind := by
    rw [Piece.nested, read_shift]
    exact h.behind

theorem Apart.separated {separator : String} {lists : List (List Piece)}
    (hseparator : r.Separates (.text separator)) (h : ∀ list ∈ lists, r.Apart list) :
    r.Apart (separated separator lists) := by
  induction lists with
  | nil => exact .nil
  | cons first rest ih =>
    obtain ⟨hfirst, hrest⟩ := List.forall_mem_cons.mp h
    cases rest with
    | nil => exact hfirst
    | cons next rest => exact hfirst.append (hseparator.loose (ih hrest))

/-! ### Layouts -/

section Layouts

variable {items : List Item}

theorem Loose.start (joins : Bool) (h : r.Apart pieces) :
    r.Loose ((if joins then [.text " "] else Piece.newLine) ++ pieces) := by
  cases joins with
  | false => exact .newLine h
  | true => exact space.loose h

theorem loose_blockItems (ownerLine? : Option Nat) (previous? : Option Range)
    (h : ∀ item ∈ items, r.Apart item.pieces) :
    r.Loose (Layout.blockItems ownerLine? previous? items) := by
  induction items generalizing previous? with
  | nil => exact .nil
  | cons item rest ih =>
    obtain ⟨hitem, hrest⟩ := List.forall_mem_cons.mp h
    exact (Loose.start _ hitem).append (ih (some item.range) hrest)

theorem loose_block (ownerLine? : Option Nat) (h : ∀ item ∈ items, r.Apart item.pieces) :
    r.Loose (Layout.block ownerLine? items) :=
  (loose_blockItems ownerLine? none h).nested

/-- A clause with its block and what follows it. -/
theorem Apart.branch {header block : List Piece} (hheader : r.Apart header)
    (hblock : r.Loose block) (hempty : block = [] → r.IsHeader header) (hrest : r.Apart rest) :
    r.Apart (header ++ (Layout.branch block ++ rest)) := by
  cases block with
  | cons first block =>
    have hall := hheader.append (hblock.append (lineBreak.loose hrest))
    simpa [Layout.branch] using hall
  | nil =>
    have hbreak : r.Separates .lineBreak := lineBreak
    have hread (behind : Bool) : r.read behind (.emptyBlockBreak :: rest) = r.read false rest :=
      read_eq_false hbreak.said_ne (fun _ => hbreak.startsWord) hbreak.endsWord
    have hconcat := hheader.headed.concat (hempty rfl)
    refine ⟨?_, ?_⟩
    · show (r.read false (header ++ .emptyBlockBreak :: rest)).isSome = true
      obtain ⟨behind, hbehind⟩ := Option.isSome_iff_exists.mp hheader.reads
      rw [read_append, hbehind, Option.bind_some, hread]
      exact hrest.reads
    · have hall := hconcat.append hrest.headed
      rwa [List.append_assoc] at hall

theorem loose_separator (previous item : Item) (next? : Option Item) (h : r.Apart pieces) :
    r.Loose (Layout.separator previous item next? ++ pieces) := by
  unfold Layout.separator
  split
  · exact space.loose h
  · split
    · exact lineBreak.loose (Loose.newLine h).toApart
    · exact .newLine h

theorem loose_bodyItems (previous : Item) (h : ∀ item ∈ items, r.Apart item.pieces) :
    r.Loose (Layout.bodyItems previous items) := by
  induction items generalizing previous with
  | nil => exact .nil
  | cons item rest ih =>
    obtain ⟨hitem, hrest⟩ := List.forall_mem_cons.mp h
    exact (loose_separator previous item rest.head? hitem).append (ih item hrest)

theorem apart_body (h : ∀ item ∈ items, r.Apart item.pieces) : r.Apart (Layout.body items) := by
  cases items with
  | nil => exact .nil
  | cons item rest =>
    obtain ⟨hitem, hrest⟩ := List.forall_mem_cons.mp h
    exact hitem.append (loose_bodyItems item hrest)

theorem loose_comma (item : Item) (rest : List Item) : r.Loose (Layout.comma item rest) := by
  unfold Layout.comma
  split
  · exact (separates_text (by decide) (by decide)).loose .nil
  · exact .nil

theorem loose_arrayItems (previous : Range) (h : ∀ item ∈ items, r.Apart item.pieces) :
    r.Loose (Layout.arrayItems previous items) := by
  induction items generalizing previous with
  | nil => exact .nil
  | cons item rest ih =>
    obtain ⟨hitem, hrest⟩ := List.forall_mem_cons.mp h
    have hstart := Loose.start (Layout.joins previous item) hitem
    exact (hstart.append (loose_comma item rest)).append (ih item.range hrest)

theorem apart_array {opening closing : Token} (hopening : r.Separates opening.piece)
    (hclosing : r.Separates closing.piece) (h : ∀ item ∈ items, r.Apart item.pieces) :
    r.Apart (Layout.array opening items closing) := by
  have hitems := (loose_arrayItems opening.range h).nested
  have hend : r.Loose ((if items.isEmpty then [] else newLine) ++ [closing.piece]) := by
    have hlast := hclosing.loose .nil
    split
    · exact hlast
    · exact .newLine hlast.toApart
  have hall := (hopening.loose (hitems.append hend).toApart).toApart
  simpa [Layout.array] using hall

theorem apart_textOperands (position : Position) (lines : List String) :
    ∀ operand ∈ Layout.textOperands position lines, r.Apart operand := by
  have hliteral (line : String) :
      ∀ operand ∈ Layout.textOperands.literal position line, r.Apart operand := by
    unfold Layout.textOperands.literal
    split
    · simp
    · exact List.forall_mem_singleton.mpr (.single rfl)
  induction lines with
  | nil => simp [Layout.textOperands]
  | cons line rest ih =>
    cases rest with
    | nil => exact hliteral line
    | cons next rest =>
      rw [Layout.textOperands, List.forall_mem_append, List.forall_mem_cons]
      exact ⟨hliteral line, .single rfl, ih⟩

theorem apart_concatenation (opening : Token) {operands : List (List Piece)}
    (h : ∀ operand ∈ operands, r.Apart operand) :
    r.Apart (Layout.concatenation opening operands) := by
  have hplus : r.Separates (.text " + ") := separates_text (by decide) (by decide)
  have hopen : r.Separates (.text "(") := separates_text (by decide) (by decide)
  have hclose : r.Separates (.text ")") := separates_text (by decide) (by decide)
  cases operands with
  | nil => exact .single rfl
  | cons first rest =>
    cases rest with
    | nil => exact h first List.mem_cons_self
    | cons next rest =>
      have hoperands := (Apart.separated hplus h).append (hclose.loose .nil)
      exact (hopen.loose hoperands).toApart

end Layouts

/-! ### Lowerings -/

theorem apart_helperCall (position : Position) (helper : Helper) {operands : List (List Piece)}
    (h : ∀ operand ∈ operands, r.Apart operand) :
    r.Apart (helperCall position helper operands) := by
  have hopen : r.Separates (.text "(") := separates_text (by decide) (by decide)
  have hclose : r.Separates (.text ")") := separates_text (by decide) (by decide)
  exact .cons rfl (hopen.loose ((Apart.separated comma h).append (hclose.loose .nil)))

theorem apart_scopeObject (captured : List Token) : r.Apart (Capture.scopeObject captured) := by
  have hopen : r.Separates (.text "\x7b") := separates_text (by decide) (by decide)
  have hclose : r.Separates (.text "\x7d") := separates_text (by decide) (by decide)
  have hmembers : ∀ list ∈ captured.map fun name : Token =>
      [.text ("\"" ++ name.text ++ "\": "), name.piece], r.Apart list := by
    refine List.forall_mem_map.mpr fun name _ => ?_
    have hend : Text.endsApart ("\"" ++ name.text ++ "\": ") = true := by
      have hlist : ("\"" ++ name.text ++ "\": ").toList =
        ('"' :: name.text.toList) ++ ['"', ':', ' '] := by simp
      rw [Text.endsApart, hlist, List.getLast?_append]
      rfl
    exact .cons_of_endsApart hend (.single rfl)
  cases captured with
  | nil => exact .single rfl
  | cons name rest =>
    have hall := (Apart.separated comma hmembers).append (hclose.loose .nil)
    exact (hopen.loose hall).toApart

theorem apart_deferred (captured : List Token) {operand : List Piece} (h : r.Apart operand) :
    r.Apart (Capture.deferred captured operand) := by
  have hbindings : r.Loose (captured.flatMap fun name => newLine ++ [Capture.binding name]) := by
    induction captured with
    | nil => exact .nil
    | cons name rest ih => exact (Loose.newLine (.single rfl)).append ih
  have hreturn : r.Apart (.text "return " :: operand) := .cons_of_endsApart (by decide) h
  have hinside := (hbindings.append (.newLine hreturn)).nested
  have hend : r.Loose (newLine ++ [.text "end function"]) := .newLine (.single rfl)
  have hopen : (Piece.text "function(scope)").isEmptyBreak = false := rfl
  have hall := Apart.cons hopen (hinside.append hend)
  simpa [Capture.deferred] using hall

end WordReader

end Downlevel
