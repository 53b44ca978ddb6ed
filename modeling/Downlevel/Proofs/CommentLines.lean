import Downlevel.Proofs.LineEnds

/-!
# No comment swallows code

Main statement: in the text for a tree, a line break or another comment follows every line of a
comment, if comment expressions stand in arrays only (`State.emit_ends_comments`). What the owner of
a part relies on is shown for every site by induction on its size; it needs to know of the parts
what the owner relies on, and of comments which texts their first lines are.
-/

namespace Downlevel

variable {first : Position → String → Bool}

/-! ## Sites -/

namespace Site

/-- The site is a comment among elements. -/
def isComment (site : Site) : Bool :=
  match site.tree with
  | .expression e => e.isComment
  | _ => false

def isArray (site : Site) : Bool :=
  match site.tree with
  | .expression (.array ..) => true
  | _ => false

/-- The comments that the site writes itself, outside of its parts. -/
def comments (site : Site) : List Comment :=
  match site.tree with
  | .statement (.comment c) => [c]
  | .expression e => e.comments
  | _ => []

/-- Comment expressions are parts of arrays only. -/
def CommentsInArrays (site : Site) : Prop :=
  ∀ owner count, site.Holds owner count → ∀ part literals, .part part literals ∈ owner.slots →
    part.isComment = true → owner.isArray = true

/-- What is left to show about a site once it is known of its parts. -/
theorem firm_of_parts {site : Site} (hcomment : site.isComment = false)
    (hparts : ∀ part literals, .part part literals ∈ site.slots → part.isComment = false →
      part.Firm first)
    (harray : ∀ part literals, .part part literals ∈ site.slots → part.isComment = true →
      site.isArray = true ∧ ∀ c ∈ part.comments, first c.first.start c.first.text = true)
    (hfirst : ∀ c ∈ site.comments, first c.first.start c.first.text = true) :
    site.Firm first := by
  have hslots (hno : site.isArray = false) : ∀ slot ∈ site.slots, slot.Firm first := by
    intro slot hslot
    cases slot with
    | own => trivial
    | part part literals =>
      apply hparts part literals hslot
      by_contra hyes
      have hin := (harray part literals hslot (by simpa using hyes)).1
      exact absurd (hno.symm.trans hin) Bool.false_ne_true
  obtain ⟨scope, ownerLine?, tree⟩ := site
  cases tree with
  | body statements => exact Layout.settles_body (readable_statementItems (hslots rfl))
  | block b =>
    obtain ⟨start, statements⟩ := b
    exact Layout.settles_block ownerLine? (readable_statementItems (hslots rfl))
  | statement s =>
    refine ⟨Statement.settles (hslots rfl), fun hs => ?_⟩
    cases s with
    | comment c => exact c.placeBehind?_space (hfirst c List.mem_cons_self)
    | _ => cases hs
  | expression e =>
    cases e with
    | array opening elements closing =>
      -- the elements are the parts, and among them comments are allowed
      have hmem {e : Expression} (he : e ∈ elements) : Slot.part ⟨scope, none, .expression e⟩ 0 ∈
          (Expression.array opening elements closing).slots scope := by
        simp [Expression.slots, Slot.operand, he]
      apply Expression.whole_array
      · exact fun e he hcode => hparts _ 0 (hmem he) hcode
      · exact fun c hc => (harray _ 0 (hmem hc) rfl).2 c List.mem_cons_self
    | _ => exact Expression.whole (hslots rfl) hfirst hcomment (by simp)

theorem firm (site : Site) (hcomment : site.isComment = false) (harrays : site.CommentsInArrays)
    (hfirst : ∀ inner count, site.Holds inner count → ∀ c ∈ inner.comments,
      first c.first.start c.first.text = true) : site.Firm first := by
  induction site using WellFounded.induction (measure fun site : Site => sizeOf site.tree).wf with
  | _ site ih =>
    refine firm_of_parts hcomment (fun part literals hpart hcode => ?_)
      (fun part literals hpart hpartComment => ⟨?_, ?_⟩) (hfirst site 0 (.self site))
    · refine ih part ?_ hcode (fun owner count howner => ?_) fun inner count hinner => ?_
      · exact (site.allFit _ hpart).1
      · exact harrays owner _ (.part hpart howner)
      · exact hfirst inner _ (.part hpart hinner)
    · exact harrays site 0 (.self site) part literals hpart hpartComment
    · exact hfirst part _ (.part hpart (.self part))

/-- Whatever is emitted for a site may stand among code if what follows it begins a line. -/
theorem settles {site : Site} (harrays : site.CommentsInArrays)
    (hfirst : ∀ inner count, site.Holds inner count → ∀ c ∈ inner.comments,
      first c.first.start c.first.text = true) : Settles first .code site.emit := by
  cases hcomment : site.isComment with
  | true =>
    obtain ⟨scope, ownerLine?, tree⟩ := site
    cases tree with
    | expression e =>
      cases e with
      | comment c => exact .inr c.placeBehind?_code
      | _ => cases hcomment
    | _ => cases hcomment
  | false =>
    have hfirm := site.firm hcomment harrays hfirst
    obtain ⟨scope, ownerLine?, tree⟩ := site
    cases tree with
    | body | block => exact hfirm
    | statement => exact hfirm.1
    | expression => exact .inl hfirm

end Site

/-! ## Behind a comment line -/

/-- The pieces are a line that a site writes as a comment: a line of a comment of its own, or an
import. -/
inductive Site.CommentLine (site : Site) : List Piece → Prop
  | token {c : Comment} {t : Token} : c ∈ site.comments → t ∈ c.tokens →
      site.CommentLine [.comment t.start t.text]
  | importFile {keyword path : Token} : site.tree = .statement (.importFile keyword path) →
      site.CommentLine [.text "'", .commentedOut keyword.start keyword.text, .text " ",
        .commentedOut path.start path.text]

theorem Woven.mem_of_own {i j : Nat} {pieces : List Piece} {slots : List Slot} {piece : Piece}
    (h : Woven i pieces slots j) (hpiece : .own piece ∈ slots) : piece ∈ pieces := by
  induction h with
  | nil => cases hpiece
  | opening _ ih => exact List.mem_cons_of_mem _ (ih hpiece)
  | closing _ ih => exact List.mem_cons_of_mem _ (ih hpiece)
  | filler _ _ ih => exact List.mem_cons_of_mem _ (ih hpiece)
  | own _ _ ih =>
    rcases List.mem_cons.mp hpiece with heq | hrest
    · cases heq
      exact List.mem_cons_self
    · exact List.mem_cons_of_mem _ (ih hrest)
  | part _ _ _ ih =>
    rcases List.mem_cons.mp hpiece with heq | hrest
    · cases heq
    · exact List.mem_append_right _ (ih hrest)

namespace Site

variable {site : Site} {line : List Piece}

theorem own_comment_mem_slots {c : Comment} {t : Token} (hc : c ∈ site.comments)
    (ht : t ∈ c.tokens) : .own (.comment t.start t.text) ∈ site.slots := by
  have hown : .own (.comment t.start t.text) ∈ c.slots := List.mem_map_of_mem ht
  obtain ⟨scope, ownerLine?, tree⟩ := site
  cases tree with
  | body | block => cases hc
  | statement s =>
    cases s with
    | comment c =>
      obtain rfl := List.mem_singleton.mp hc
      exact hown
    | _ => cases hc
  | expression e =>
    cases e with
    | comment c =>
      obtain rfl := List.mem_singleton.mp hc
      exact hown
    | record opening members closing =>
      obtain ⟨member, hmember, hcomment⟩ := List.mem_filterMap.mp hc
      cases member with
      | pair => cases hcomment
      | comment c =>
        cases hcomment
        have hmem := List.mem_flatMap_of_mem (f := Member.slots scope) hmember hown
        simp [slots, Expression.slots, hmem]
    | _ => cases hc

theorem CommentLine.infix_emit (h : site.CommentLine line) : line <:+: site.emit := by
  cases h with
  | token hc ht =>
    have hmem := site.woven.mem_of_own (own_comment_mem_slots hc ht)
    obtain ⟨before, after, heq⟩ := List.append_of_mem hmem
    exact ⟨before, after, by simp [heq]⟩
  | importFile htree =>
    obtain ⟨scope, ownerLine?, _⟩ := site
    cases htree
    exact List.infix_refl _

/-- Comment lines are written wherever their site is written. -/
theorem CommentLine.infix_of_inside {pieces : List Piece} {count : Nat} (h : site.CommentLine line)
    (hinside : Inside pieces site.emit count) : line <:+: pieces := by
  obtain ⟨before, levels, after, rfl, -⟩ := hinside
  have hline : line.map (Piece.shift levels) = line := by cases h <;> rfl
  have hmoved := h.infix_emit.map (Piece.shift levels)
  rw [hline] at hmoved
  exact hmoved.trans (List.infix_append before _ after)

theorem CommentLine.eq_comment {place next : Place} (h : site.CommentLine line)
    (hnext : placeBehind? first place line = some next) : next = .comment := by
  cases h <;> cases place <;> simp_all [placeBehind?, Piece.follow]

end Site

/-- Behind a comment line one has to be behind a comment. -/
theorem Settles.behind_line {before line after : List Piece}
    (h : Settles first .code (before ++ line ++ after))
    (hline : ∀ place next, placeBehind? first place line = some next → next = .comment) :
    Settles first .comment after := by
  obtain ⟨last, hlast, hread⟩ : ∃ last, (last = .code ∨ last = .comment) ∧
      placeBehind? first .code (before ++ line ++ after) = some last := by
    rcases h with h | h
    · exact ⟨.code, .inl rfl, h⟩
    · exact ⟨.comment, .inr rfl, h⟩
  rw [placeBehind?_append, placeBehind?_append, Option.bind_assoc] at hread
  obtain ⟨place, -, hread⟩ := Option.bind_eq_some_iff.mp hread
  obtain ⟨next, hnext, hread⟩ := Option.bind_eq_some_iff.mp hread
  obtain rfl := hline place next hnext
  rcases hlast with rfl | rfl
  · exact .inl hread
  · exact .inr hread

theorem Settles.space_cases {pieces : List Piece} (h : Settles first .space pieces) :
    ∃ position text rest, pieces = .comment position text :: rest ∧
      first position text = true := by
  cases pieces with
  | nil => rcases h with h | h <;> cases h
  | cons piece rest =>
    cases piece with
    | comment position text =>
      refine ⟨position, text, rest, rfl, ?_⟩
      by_contra hfirst
      simp_all [Settles, Piece.follow]
    | _ => rcases h with h | h <;> cases h

/-- What can be read behind a comment line. -/
theorem Settles.comment_cases {pieces : List Piece} (h : Settles first .comment pieces) :
    pieces = [] ∨ (∃ rest, pieces = .lineBreak :: rest) ∨
      ∃ position text rest, pieces = .text " " :: .comment position text :: rest ∧
        first position text = true := by
  cases pieces with
  | nil => exact .inl rfl
  | cons piece rest =>
    cases piece with
    | lineBreak => exact .inr (.inl ⟨rest, rfl⟩)
    | text s =>
      have hspace : s = " " := by
        by_contra hs
        simp_all [Settles, Piece.follow]
      subst hspace
      obtain ⟨position, text, more, rfl, hfirst⟩ := Settles.space_cases h
      exact .inr (.inr ⟨position, text, more, rfl, hfirst⟩)
    | _ => rcases h with h | h <;> cases h

namespace State

/-- What may stand behind a comment line in the text for a tree: nothing, a line break, or a space
and the first line of a comment. -/
def EndsLine (s : State) (tree : Tree) (fragments : List Fragment) : Prop :=
  fragments = [] ∨ (∃ rest, fragments = .plain s.options.newLine.text :: rest) ∨
  ∃ site count c rest, (s.site tree).Holds site count ∧ c ∈ site.comments ∧
    fragments = .plain " " :: .mapped c.first.start s.source c.first.text :: rest

/-- Every line of a comment is emitted, and wherever it stands in the text, the text ends behind it
or a line break or another comment follows. -/
theorem emit_ends_comments (s : State) (tree : Tree)
    (harrays : (s.site tree).CommentsInArrays) {site : Site} {count : Nat} {line : List Piece}
    (hsite : (s.site tree).Holds site count) (hline : site.CommentLine line) :
    line <:+: s.pieces tree ∧
    ∀ before after, s.pieces tree = before ++ line ++ after →
      (s.emit tree).1 = s.render before ++ s.render line ++ s.render after ∧
      s.EndsLine tree (s.render after) := by
  refine ⟨hline.infix_of_inside hsite.inside, fun before after heq => ⟨?_, ?_⟩⟩
  · have hemit : (s.emit tree).1 = s.render (s.pieces tree) := rfl
    rw [hemit, heq, render, Piece.renderAll_append, Piece.renderAll_append]
    rfl
  · classical
    let first (position : Position) (text : String) : Bool := decide (∃ inner count c,
      (s.site tree).Holds inner count ∧ c ∈ inner.comments ∧ c.first.start = position ∧
        c.first.text = text)
    have hall : Settles first .code (s.pieces tree) := Site.settles harrays
      fun inner count hinner c hc => decide_eq_true ⟨inner, count, c, hinner, hc, rfl, rfl⟩
    rw [heq] at hall
    have hafter := hall.behind_line fun place next => hline.eq_comment
    rcases hafter.comment_cases with rfl | ⟨rest, rfl⟩ | ⟨position, text, rest, rfl, htext⟩
    · exact .inl rfl
    · exact .inr (.inl ⟨s.render rest, rfl⟩)
    · obtain ⟨inner, count, c, hinner, hc, rfl, rfl⟩ := of_decide_eq_true htext
      exact .inr (.inr ⟨inner, count, c, s.render rest, hinner, hc, rfl⟩)

/-- In an array of a comment and a name, the name stands on a line of its own. -/
theorem emit_ends_comments_array :
    let s : State := ⟨{}, .none, "", 0, [], {}⟩
    let c : Comment := ⟨{ (default : Token) with text := "' first" }, [], .element⟩
    let name : Expression := .identifier { (default : Token) with text := "a" }
    let tree : Tree := .expression (.array default [.comment c, name] default)
    let line : List Piece := [.comment c.first.start c.first.text]
    ((s.site tree).CommentsInArrays ∧
      (s.site tree).Holds ⟨s.scope, none, .expression (.comment c)⟩ 0 ∧
      Site.CommentLine ⟨s.scope, none, .expression (.comment c)⟩ line) ∧
    line <:+: s.pieces tree ∧
    ∀ before after, s.pieces tree = before ++ line ++ after →
      (s.emit tree).1 = s.render before ++ s.render line ++ s.render after ∧
      s.EndsLine tree (s.render after) := by
  intro s c name tree line
  have hpart : .part ⟨s.scope, none, .expression (.comment c)⟩ 0 ∈ (s.site tree).slots := by
    simp [tree, State.site, Site.slots, Expression.slots, Slot.operand]
  have hholds : (s.site tree).Holds ⟨s.scope, none, .expression (.comment c)⟩ (0 + 0) :=
    .part hpart (.self _)
  have hline : Site.CommentLine ⟨s.scope, none, .expression (.comment c)⟩ line :=
    .token List.mem_cons_self List.mem_cons_self
  have harrays : (s.site tree).CommentsInArrays := by
    intro owner count howner part literals hmem _
    cases howner with
    | self => rfl
    | part hpart' hinner =>
      -- neither element has parts
      simp [tree, State.site, Site.slots, Expression.slots, Slot.operand, Slot.token] at hpart'
      rcases hpart' with ⟨rfl, -⟩ | ⟨rfl, -⟩ <;> cases hinner with
      | self => simp [name, Site.slots, Expression.slots, Comment.slots] at hmem
      | part h => simp [name, Site.slots, Expression.slots, Comment.slots] at h
  exact ⟨⟨harrays, hholds, hline⟩, emit_ends_comments s tree harrays hholds hline⟩

end State

end Downlevel
