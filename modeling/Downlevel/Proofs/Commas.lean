import Downlevel.Proofs.LiteralLayout

/-!
# Commas

Between two values of a literal stands one comma, wherever the comments are. Behind a comment a
comma would be part of the comment, so it stands right behind its value, and whether there is one
depends on what follows the comments.

Here the fragments of a literal are cut into stretches: its members, its commas, and what only lays
it out. Without the comments and the layout, the values with commas between them are left.

Main statement: arrays and records place their commas like that (`State.emit_commas`).
-/

namespace Downlevel

namespace Literal

/-! ## Stretches -/

/-- A stretch of what is written between the brackets of a literal. -/
inductive Stretch where
  /-- A value; in a record, with its key before it. -/
  | value (fragments : List Fragment)
  | comment (fragments : List Fragment)
  | comma
  /-- A space, behind which a comment stays on the line. -/
  | space
  /-- A line break, and the indentation of a line so many levels below the literal. -/
  | line (levels : Nat)

namespace Stretch

/-- The fragments of the stretch, in a literal that is written in the given state. -/
def fragments (s : State) : Stretch → List Fragment
  | value written => written
  | comment written => written
  | comma => [.plain ","]
  | space => [.plain " "]
  | line levels => [.plain s.options.newLine.text,
      .plain (Piece.indentation s.options.indentUnit (s.depth + levels))]

/-- The stretch is a value. -/
def isValue : Stretch → Bool
  | value _ => true
  | _ => false

/-- The stretch is a member of the literal. -/
def isMember : Stretch → Bool
  | value _ => true
  | comment _ => true
  | _ => false

/-- The stretch is neither a comment nor layout. -/
def isCode : Stretch → Bool
  | value _ => true
  | comma => true
  | _ => false

end Stretch

/-- Every comma stands right behind a value. -/
def CommasBehindValues (stretches : List Stretch) : Prop :=
  ∀ before after, stretches = before ++ .comma :: after →
    ∃ front written, before = front ++ [.value written]

/-- The fragments are those of a literal with the given members, one after the other. What is left
without comments and layout are the values, with a comma between any two that follow each other. -/
def PlacesCommas (s : State) (opening : Token) (members : List Stretch) (closing : Token)
    (written : List Fragment) : Prop :=
  ∃ stretches : List Stretch,
    written = .mapped opening.start s.source opening.text ::
      stretches.flatMap (Stretch.fragments s) ++
      [.mapped closing.start s.source closing.text] ∧
    stretches.filter Stretch.isMember = members ∧
    stretches.filter Stretch.isCode = (members.filter Stretch.isValue).intersperse .comma ∧
    CommasBehindValues stretches

theorem commasBehindValues_of_not_mem {stretches : List Stretch} (h : .comma ∉ stretches) :
    CommasBehindValues stretches := by
  rintro before after rfl
  exact absurd (List.mem_append_right before List.mem_cons_self) h

theorem CommasBehindValues.append {stretches more : List Stretch}
    (h : CommasBehindValues stretches) (hmore : CommasBehindValues more) :
    CommasBehindValues (stretches ++ more) := by
  intro before after heq
  rcases List.append_eq_append_iff.mp heq with ⟨front, rfl, hrest⟩ | ⟨back, hstretches, hrest⟩
  · obtain ⟨front, written, rfl⟩ := hmore front after hrest
    exact ⟨stretches ++ front, written, (List.append_assoc ..).symm⟩
  · cases back with
    | nil =>
      obtain ⟨front, written, hfront⟩ := hmore [] after hrest.symm
      cases front <;> cases hfront
    | cons first back =>
      obtain ⟨rfl, -⟩ := List.cons.inj hrest
      exact h before back hstretches

/-! ## Entries as stretches -/

/-- The stretch of a separator before a member. -/
def Separator.stretch : Separator → Stretch
  | space => .space
  | newLine => .line 1

/-- The stretches of an entry that is filled in with a member. -/
def Entry.stretches (entry : Entry) (member : Stretch) : List Stretch :=
  [entry.separator.stretch, member] ++ if entry.comma then [.comma] else []

/-- The stretches of entries that are filled in with members. -/
def entryStretches (entries : List Entry) (members : List Stretch) : List Stretch :=
  (List.zipWith Entry.stretches entries members).flatten

namespace Outline

/-- The stretch of a member, with the given fragments for a value. -/
def stretch (s : State) (written : List Fragment) : Outline → Stretch
  | value _ => .value written
  | comment c => .comment (s.render c.pieces)

theorem isValue_stretch (s : State) (written : List Fragment) (o : Outline) :
    (o.stretch s written).isValue = !o.isComment := by
  cases o <;> rfl

theorem isMember_stretch (s : State) (written : List Fragment) (o : Outline) :
    (o.stretch s written).isMember = true := by
  cases o <;> rfl

end Outline

theorem Separator.isMember_stretch (separator : Separator) :
    separator.stretch.isMember = false := by
  cases separator <;> rfl

theorem Separator.isCode_stretch (separator : Separator) : separator.stretch.isCode = false := by
  cases separator <;> rfl

theorem entryStretches_cons (entry : Entry) (entries : List Entry) (member : Stretch)
    (members : List Stretch) : entryStretches (entry :: entries) (member :: members) =
      entry.stretches member ++ entryStretches entries members := rfl

theorem filter_isMember_stretches (entry : Entry) {member : Stretch}
    (h : member.isMember = true) : (entry.stretches member).filter Stretch.isMember = [member] := by
  rw [Entry.stretches, List.filter_append, List.filter_cons_of_neg
    (by simp [Separator.isMember_stretch]), List.filter_cons_of_pos h]
  cases entry.comma <;> rfl

theorem filter_isCode_stretches (entry : Entry) (member : Stretch) :
    (entry.stretches member).filter Stretch.isCode =
      [member].filter Stretch.isCode ++ if entry.comma then [.comma] else [] := by
  rw [Entry.stretches, List.filter_append, List.filter_cons_of_neg
    (by simp [Separator.isCode_stretch])]
  cases entry.comma <;> rfl

/-- In an entry the comma comes right behind a value. -/
theorem commasBehindValues_stretches {entry : Entry} {member : Stretch}
    (hmember : member.isMember = true) (hcomma : entry.comma = true → member.isValue = true) :
    CommasBehindValues (entry.stretches member) := by
  intro before after heq
  rw [Entry.stretches, List.cons_append, List.cons_append, List.nil_append] at heq
  rcases before with _ | ⟨first, _ | ⟨second, front⟩⟩
  · -- the separator is no comma
    have hseparator : entry.separator.stretch = .comma := (List.cons.inj heq).1
    cases hentry : entry.separator <;> rw [hentry] at hseparator <;> cases hseparator
  · -- and neither is the member
    have hcomma := (List.cons.inj (List.cons.inj heq).2).1
    rw [hcomma] at hmember
    cases hmember
  · obtain ⟨rfl, hrest⟩ := List.cons.inj (List.cons.inj heq).2
    split at hrest
    next hentry =>
      have hvalue := hcomma hentry
      obtain rfl : front = [] := by
        cases front with
        | nil => rfl
        | cons next front => simp at hrest
      cases member with
      | value written => exact ⟨[first], written, rfl⟩
      | comment | comma | space | line => cases hvalue
    next => simp at hrest

/-- What stands before the closing bracket. -/
def closingStretches (entries : List Entry) : List Stretch :=
  if entries.isEmpty then [] else [.line 0]

theorem flatMap_closingStretches (s : State) (entries : List Entry) :
    (closingStretches entries).flatMap (Stretch.fragments s) =
      if entries.isEmpty then [] else Separator.newLine.fragments s := by
  rw [closingStretches]
  split <;> rfl

theorem filter_closingStretches (entries : List Entry) {p : Stretch → Bool}
    (h : p (.line 0) = false) : (closingStretches entries).filter p = [] := by
  rw [closingStretches]
  split
  · rfl
  · exact List.filter_eq_nil_iff.mpr (by simp [h])

theorem comma_not_mem_closingStretches (entries : List Entry) :
    .comma ∉ closingStretches entries := by
  rw [closingStretches]
  split <;> simp

section Filling

variable (s : State) {α : Type} (outline : α → Outline) (value : α → List Fragment)

theorem flatMap_stretches (separator : Separator) (o : Outline) (comma : Bool)
    (written : List Fragment) :
    let inside := { s with depth := s.depth + 1 }
    (Entry.stretches ⟨separator, o.comment?, comma⟩ (o.stretch inside written)).flatMap
        (Stretch.fragments s) =
      Entry.fragments inside ⟨separator, o.comment?, comma⟩ written := by
  intro inside
  have hseparator : separator.stretch.fragments s = separator.fragments inside := by
    cases separator <;> rfl
  rw [Entry.stretches, List.flatMap_append, List.flatMap_cons, List.flatMap_singleton, hseparator,
    Entry.fragments]
  -- a comment is rendered from its pieces, and a value is written as it is given
  cases o <;> cases comma <;> rfl

theorem flatMap_entryStretches (previous : Range) (list : List α) :
    let inside := { s with depth := s.depth + 1 }
    (entryStretches (entries previous (list.map outline))
        (list.map fun a => (outline a).stretch inside (value a))).flatMap (Stretch.fragments s) =
      entryFragments inside (entries previous (list.map outline)) (list.map value) := by
  intro inside
  induction list generalizing previous with
  | nil => rfl
  | cons a rest ih =>
    rw [List.map_cons, List.map_cons, List.map_cons, entries, entryStretches_cons,
      List.flatMap_append, flatMap_stretches, ih, entryFragments_cons]

theorem filter_isMember_entryStretches (previous : Range) (list : List α) :
    (entryStretches (entries previous (list.map outline))
        (list.map fun a => (outline a).stretch s (value a))).filter Stretch.isMember =
      list.map fun a => (outline a).stretch s (value a) := by
  induction list generalizing previous with
  | nil => rfl
  | cons a rest ih =>
    have hmember := Outline.isMember_stretch s (value a) (outline a)
    rw [List.map_cons, List.map_cons, entries, entryStretches_cons, List.filter_append, ih,
      filter_isMember_stretches _ hmember, List.singleton_append]

theorem intersperse_cons (separator first : Stretch) (rest : List Stretch) :
    (first :: rest).intersperse separator =
      [first] ++ (if !rest.isEmpty then [separator] else []) ++ rest.intersperse separator := by
  cases rest <;> rfl

theorem any_value_eq (list : List α) : (list.map outline).any (!·.isComment) =
    !((list.map fun a => (outline a).stretch s (value a)).filter Stretch.isValue).isEmpty := by
  induction list with
  | nil => rfl
  | cons a rest ih =>
    rw [List.map_cons, List.map_cons, List.any_cons, ih, List.filter_cons, Outline.isValue_stretch]
    cases (outline a).isComment <;> simp

/-- A value has a comma behind it if there is another one among the members that follow. -/
theorem filter_isCode_entryStretches (previous : Range) (list : List α) :
    (entryStretches (entries previous (list.map outline))
        (list.map fun a => (outline a).stretch s (value a))).filter Stretch.isCode =
      ((list.map fun a => (outline a).stretch s (value a)).filter Stretch.isValue).intersperse
        .comma := by
  induction list generalizing previous with
  | nil => rfl
  | cons a rest ih =>
    have hany := any_value_eq s outline value rest
    rw [List.map_cons, List.map_cons, entries, entryStretches_cons, List.filter_append, ih,
      filter_isCode_stretches, hany]
    cases outline a with
    | comment c => rfl
    | value range => exact (intersperse_cons _ _ _).symm

theorem commasBehindValues_entryStretches (previous : Range) (list : List α) :
    CommasBehindValues (entryStretches (entries previous (list.map outline))
      (list.map fun a => (outline a).stretch s (value a))) := by
  induction list generalizing previous with
  | nil => exact commasBehindValues_of_not_mem List.not_mem_nil
  | cons a rest ih =>
    refine (commasBehindValues_stretches ?_ ?_).append (ih _)
    · exact Outline.isMember_stretch s (value a) (outline a)
    · intro hcomma
      rw [Outline.isValue_stretch]
      exact (Bool.and_eq_true_iff.mp hcomma).1

/-- A literal that is filled in has its commas behind its values. -/
theorem placesCommas_fragments (opening closing : Token) (list : List α) :
    PlacesCommas s opening
      (list.map fun a => (outline a).stretch { s with depth := s.depth + 1 } (value a)) closing
      (fragments s opening (entries opening.range (list.map outline)) (list.map value)
        closing) := by
  let inside := { s with depth := s.depth + 1 }
  let places := entries opening.range (list.map outline)
  refine ⟨entryStretches places (list.map fun a => (outline a).stretch inside (value a)) ++
    closingStretches places, ?_, ?_, ?_, ?_⟩
  · rw [List.flatMap_append, flatMap_entryStretches, flatMap_closingStretches, fragments,
      List.cons_append]
  · rw [List.filter_append, filter_isMember_entryStretches, filter_closingStretches places rfl,
      List.append_nil]
  · rw [List.filter_append, filter_isCode_entryStretches, filter_closingStretches places rfl,
      List.append_nil]
  · apply (commasBehindValues_entryStretches inside outline value opening.range list).append
    exact commasBehindValues_of_not_mem (comma_not_mem_closingStretches places)

end Filling

end Literal

/-! ## Arrays and records -/

/-- The element as a stretch of its array. -/
def Expression.stretch (s : State) : Expression → Literal.Stretch
  | .comment c => .comment (s.emit (.expression (.comment c))).1
  | e => .value (s.emit (.expression e)).1

/-- The member as a stretch of its record. -/
def Member.stretch (s : State) : Member → Literal.Stretch
  | .comment c => .comment (s.emit (.statement (.comment c))).1
  | .pair key colon value => .value ((Member.pair key colon value).fragments s)

namespace State

variable (s : State) (opening closing : Token)

theorem emit_array (elements : List Expression) :
    let inside := { s with depth := s.depth + 1 }
    (s.emit (.expression (.array opening elements closing))).1 =
      Literal.fragments s opening (Literal.entries opening.range (elements.map Expression.outline))
        (elements.map fun e => (inside.emit (.expression e)).1) closing := by
  intro inside
  show s.render ((Expression.array opening elements closing).emit s.scope) = _
  rw [Expression.emit, elementItems_eq_map_outline, Literal.render_array]
  rfl

theorem emit_record (members : List Member) :
    let inside := { s with depth := s.depth + 1 }
    (s.emit (.expression (.record opening members closing))).1 =
      Literal.fragments s opening (Literal.entries opening.range (members.map Member.outline))
        (members.map (Member.fragments inside)) closing := by
  intro inside
  have hpieces : (members.map fun m => inside.render (m.pieces inside.scope)) =
      members.map (Member.fragments inside) :=
    List.map_congr_left fun m _ => m.render_pieces inside
  show s.render ((Expression.record opening members closing).emit s.scope) = _
  rw [Expression.emit, Layout.record_eq_array, memberItems_eq_map_outline, Literal.render_array,
    ← hpieces]
  rfl

/-- In arrays and records, a comma comes right behind each value that another value follows, before
any comment, and nowhere else. -/
theorem emit_commas (elements : List Expression) (members : List Member) :
    let inside := { s with depth := s.depth + 1 }
    Literal.PlacesCommas s opening (elements.map (Expression.stretch inside)) closing
      (s.emit (.expression (.array opening elements closing))).1 ∧
    Literal.PlacesCommas s opening (members.map (Member.stretch inside)) closing
      (s.emit (.expression (.record opening members closing))).1 := by
  intro inside
  constructor
  · have hstretch : elements.map (Expression.stretch inside) =
        elements.map fun e => e.outline.stretch inside (inside.emit (.expression e)).1 := by
      apply List.map_congr_left
      intro e _
      cases e <;> rfl
    rw [hstretch, emit_array]
    exact Literal.placesCommas_fragments s Expression.outline _ opening closing elements
  · have hstretch : members.map (Member.stretch inside) =
        members.map fun m => m.outline.stretch inside (m.fragments inside) := by
      apply List.map_congr_left
      intro m _
      cases m <;> rfl
    rw [hstretch, emit_record]
    exact Literal.placesCommas_fragments s Member.outline _ opening closing members

end State

end Downlevel
