import Downlevel.Proofs.Calls
import Downlevel.Proofs.Formatting
import Downlevel.Proofs.SourceOrder
import Downlevel.Proofs.Walking

/-!
# Plain trees are written token by token

The transcript of a tree lists its tokens in written order, each with the text that is written for
it (`Node.transcript`). It is read off the parts of the nodes and knows nothing of layout.

A tree is plain if there is none of the forms in it that are lowered to others. Then every node
writes its parts in order (`Node.mapped_skeleton`), and the fragments with a source position are the
transcript. Main statement: so it is wherever no namespace is known and none is around, and in
source order the positions never decrease (`State.walk_transcript`).
-/

namespace Downlevel

/-! ## Transcripts -/

/-- A token and the text that is written for it. -/
structure Spelling where
  token : Token
  text : String
  deriving DecidableEq

namespace Node

/-- How a token of the node is spelled: a string literal and the statements without operands in
their canonical form, anything else as it was written. The separators of a `print` statement are not
written. -/
def spell (t : Token) : Node → List Spelling
  | expression (.literal _) =>
    [⟨t, if t.kind = .stringLiteral then Text.quote (Text.unquote t.text) else t.text⟩]
  | statement (.keyword word _) => [⟨t, word.text⟩]
  | item (.separator _) => []
  | _ => [⟨t, t.text⟩]

/-- The tokens at and below the node in written order, as they are spelled. -/
def transcript (n : Node) : List Spelling :=
  n.parts.attach.flatMap fun
    | ⟨.token t, _⟩ => n.spell t
    | ⟨.node m, _⟩ => m.transcript
    | ⟨.opening _, _⟩ => []
termination_by sizeOf n
decreasing_by exact sizeOf_lt_of_mem_parts ‹_›

end Node

/-- The share of a part in the transcript of its node. -/
def Part.transcript (n : Node) : Part → List Spelling
  | token t => n.spell t
  | node m => m.transcript
  | opening _ => []

theorem Node.transcript_eq (n : Node) :
    n.transcript = n.parts.flatMap (Part.transcript n) := by
  rw [transcript]
  conv_rhs => rw [← List.attach_map_subtype_val n.parts, List.flatMap_map]
  apply List.flatMap_congr
  rintro ⟨part, hpart⟩ -
  cases part <;> rfl

/-! ## Mapped fragments -/

/-- The fragment that maps the text to the token. -/
def Spelling.fragment (source : String) (spelling : Spelling) : Fragment :=
  .mapped spelling.token.start source spelling.text

/-- The fragments of the pieces that have a source position. -/
def State.mapped (s : State) (pieces : List Piece) : List Fragment :=
  (s.render pieces).filter Fragment.isMapped

/-- The fragments of an entry that have a source position. -/
def Slot.mapped (s : State) : Slot → List Fragment
  | own piece => s.mapped [piece]
  | part site _ => s.mapped site.emit

namespace State

variable (s : State)

theorem mapped_append (pieces more : List Piece) :
    s.mapped (pieces ++ more) = s.mapped pieces ++ s.mapped more := by
  simp [mapped, render, Piece.renderAll]

theorem mapped_cons (piece : Piece) (rest : List Piece) :
    s.mapped (piece :: rest) = s.mapped [piece] ++ s.mapped rest :=
  s.mapped_append [piece] rest

theorem mapped_of_isMapped_eq_false {piece : Piece} (h : piece.isMapped = false) :
    s.mapped [piece] = [] := by
  cases piece with
  | written | comment | commentedOut | helper => cases h
  | emptyBlockBreak =>
    simp only [mapped, render, Piece.renderAll, Piece.shift, Piece.render, List.flatMap_cons]
    split <;> rfl
  | _ => rfl

theorem mapped_map_shift (levels : Nat) (pieces : List Piece) :
    s.mapped (pieces.map (Piece.shift levels)) = s.mapped pieces := by
  induction pieces with
  | nil => rfl
  | cons piece rest ih =>
    rw [List.map_cons, mapped_cons, s.mapped_cons piece, ih]
    cases piece <;> rfl

end State

theorem Woven.mapped (s : State) {i j : Nat} {pieces : List Piece} {slots : List Slot}
    (h : Woven i pieces slots j) : s.mapped pieces = slots.flatMap (Slot.mapped s) := by
  induction h with
  | nil => rfl
  | opening _ ih | closing _ ih =>
    rw [State.mapped_cons, ih, s.mapped_of_isMapped_eq_false rfl]
    rfl
  | @filler i j piece pieces slots hpiece _ ih =>
    have hmapped : piece.isMapped = false := by
      cases piece <;> first | rfl | cases hpiece
    rw [State.mapped_cons, ih, s.mapped_of_isMapped_eq_false hmapped]
    rfl
  | own _ _ ih =>
    rw [State.mapped_cons, ih, List.flatMap_cons]
    rfl
  | part site levels _ ih =>
    rw [State.mapped_append, s.mapped_map_shift, ih, List.flatMap_cons]
    rfl

/-! ## Plain trees -/

namespace Node

/-- The node is one of the forms that the target language lacks. -/
def isLowered : Node → Bool
  | expression (.callfunc ..) => true
  | expression (.construct ..) => true
  | expression (.conditional ..) => true
  | expression (.coalesce ..) => true
  | expression (.template ..) => true
  | statement (.namespaceBlock ..) => true
  | _ => false

/-- There is none of these forms at or below the node. -/
def Plain (n : Node) : Prop := ∀ inner, n.Holds inner → inner.isLowered = false

/-- The skeleton of a node, with all its tokens. A dotted name and the text of a template string are
parts of forms that are lowered; by themselves they would be written as they stand. -/
def skeleton (scope : Scope) : Node → List Slot
  | typeClause clause => TypeClause.slots clause
  | name n => .token n.root :: n.links.flatMap fun link => [.token link.dot, .token link.name]
  | part (.text token) => [.token token]
  | n => n.slots scope

end Node

/-- Where no namespace is known and none is around. -/
def Scope.global : Scope := ⟨Resolver.none, none⟩

namespace Scope

@[simp] theorem referredName_global (name : String) : global.referredName name = name := rfl

end Scope

namespace Slot

variable (s : State)

@[simp] theorem mapped_own_written (position : Position) (text : String) :
    (own (.written position text)).mapped s = [.mapped position s.source text] := rfl

@[simp] theorem mapped_own_comment (position : Position) (text : String) :
    (own (.comment position text)).mapped s = [.mapped position s.source text] := rfl

@[simp] theorem mapped_own_commentedOut (position : Position) (text : String) :
    (own (.commentedOut position text)).mapped s = [.mapped position s.source text] := rfl

@[simp] theorem mapped_token (t : Token) :
    (token t).mapped s = [.mapped t.start s.source t.text] := rfl

@[simp] theorem mapped_operand (scope : Scope) (e : Expression) :
    (operand scope e).mapped s = (e.slots scope).flatMap (mapped s) :=
  (e.woven scope).mapped s

@[simp] theorem mapped_statement (scope : Scope) (statement : Statement) :
    (Slot.statement scope statement).mapped s = (statement.slots scope).flatMap (mapped s) :=
  (statement.woven scope).mapped s

@[simp] theorem mapped_block (scope : Scope) (ownerLine : Nat) (b : Block) :
    (block scope ownerLine b).mapped s =
      (b.statements.map (Slot.statement scope)).flatMap (mapped s) :=
  (Site.woven ⟨scope, some ownerLine, .block b⟩).mapped s

end Slot

/-- What a part contributes to the fragments of its node. -/
def Part.mapped (s : State) (n : Node) : Part → List Fragment
  | token t => (n.spell t).map (Spelling.fragment s.source)
  | node m => (m.skeleton .global).flatMap (Slot.mapped s)
  | opening _ => []

namespace Part

variable (s : State) (n : Node)

@[simp] theorem mapped_token (t : Token) :
    (token t).mapped s n = (n.spell t).map (Spelling.fragment s.source) := rfl

@[simp] theorem mapped_node (m : Node) :
    (node m).mapped s n = (m.skeleton .global).flatMap (Slot.mapped s) := rfl

@[simp] theorem mapped_opening (p : Position) : (opening p).mapped s n = [] := rfl

@[simp] theorem mapped_expression (e : Expression) :
    (expression e).mapped s n = (e.slots .global).flatMap (Slot.mapped s) := rfl

@[simp] theorem mapped_block (b : Block) :
    (block b).mapped s n =
      (b.statements.map (Slot.statement .global)).flatMap (Slot.mapped s) := rfl

end Part

theorem Expression.mapped_skeleton (s : State) (e : Expression)
    (h : (Node.expression e).isLowered = false) :
    (e.slots .global).flatMap (Slot.mapped s) =
      e.parts.flatMap (Part.mapped s (.expression e)) := by
  cases e with
  | callfunc | construct | conditional | coalesce | template => cases h
  | member object dot name =>
    -- A chain of names is written as one only where a namespace is known.
    have hflattened : flattened? .global (.member object dot name) = none := by
      rw [flattened?]
      split <;> rfl
    simp [slots, hflattened, parts, Node.spell, Spelling.fragment]
  | literal token =>
    rw [slots, literalPiece]
    split <;> simp [parts, Node.spell, Spelling.fragment, Token.piece, *]
  | _ =>
    simp [slots, parts, Node.spell, Spelling.fragment, Node.skeleton, Node.slots, List.flatMap_map,
      List.flatMap_assoc]

theorem FunctionLiteral.mapped_skeleton (s : State) {n : Node}
    (hn : ∀ t, n.spell t = [⟨t, t.text⟩]) (name? : Option Token) (f : FunctionLiteral) :
    (f.slots .global (name?.map Token.piece)).flatMap (Slot.mapped s) =
      (f.parts name?).flatMap (Part.mapped s n) := by
  have hname : (name?.map Token.piece).toList.map Slot.own = name?.toList.map Slot.token := by
    cases name? <;> rfl
  have htype : (TypeClause.slots f.returnType?).flatMap (Slot.mapped s) =
      (f.returnType?.toList.map (Part.node ∘ Node.typeClause)).flatMap (Part.mapped s n) := by
    cases f.returnType? <;> simp [TypeClause.slots, Node.skeleton]
  rw [slots, parts, hname]
  simp [htype, hn, Spelling.fragment, List.flatMap_map, List.flatMap_assoc, Node.skeleton,
    Node.slots]

theorem Statement.mapped_skeleton (s : State) (statement : Statement)
    (h : (Node.statement statement).isLowered = false) :
    (statement.slots .global).flatMap (Slot.mapped s) =
      statement.parts.flatMap (Part.mapped s (.statement statement)) := by
  cases statement with
  | namespaceBlock => cases h
  | function name f => exact f.mapped_skeleton s (fun _ => rfl) (some name)
  | _ =>
    rw [slots, parts]
    simp [Slot.tokens, Node.spell, Spelling.fragment, Node.skeleton, Node.slots, List.flatMap_map,
      List.flatMap_assoc]

theorem Parameter.mapped_skeleton (s : State) (p : Parameter) :
    (p.slots .global).flatMap (Slot.mapped s) = p.parts.flatMap (Part.mapped s (.parameter p)) := by
  obtain ⟨name, default?, type?⟩ := p
  cases type? <;>
    simp [slots, parts, TypeClause.slots, Node.spell, Spelling.fragment, Node.skeleton,
      List.flatMap_map]

/-- A node that is not lowered writes its parts. -/
theorem Node.mapped_skeleton (s : State) (n : Node) (h : n.isLowered = false) :
    (n.skeleton .global).flatMap (Slot.mapped s) = n.parts.flatMap (Part.mapped s n) := by
  cases n with
  | expression e => exact e.mapped_skeleton s h
  | statement statement => exact statement.mapped_skeleton s h
  | function f => exact f.mapped_skeleton s (fun _ => rfl) none
  | parameter p => exact p.mapped_skeleton s
  | member a | part a | item a =>
    cases a <;>
      simp [skeleton, slots, Member.slots, PrintItem.slots, parts, Member.parts,
        TemplatePart.parts, PrintItem.parts, spell, Spelling.fragment]
  | _ =>
    simp [skeleton, slots, TypeClause.slots, Comment.slots, Assignment.slots, ElseIf.slots,
      Else.slots, ForStep.slots, Slot.tokens, parts, DottedName.writtenParts, spell,
      Spelling.fragment, List.flatMap_map, List.flatMap_assoc]

namespace Node

variable {n : Node}

theorem Plain.holds {inner : Node} (h : n.Plain) (hinner : n.Holds inner) : inner.Plain :=
  fun last hlast => h last (hinner.trans hlast)

/-- A plain tree writes its transcript. -/
theorem Plain.mapped_skeleton (s : State) {n : Node} (h : n.Plain) :
    (n.skeleton .global).flatMap (Slot.mapped s) =
      n.transcript.map (Spelling.fragment s.source) := by
  rw [n.mapped_skeleton s (h n (.self n)), transcript_eq, List.map_flatMap]
  apply List.flatMap_congr
  intro part hpart
  cases part with
  | token t => rfl
  | opening p => rfl
  | node m => exact (h.holds (holds_of_mem_parts hpart)).mapped_skeleton s
termination_by sizeOf n
decreasing_by exact sizeOf_lt_of_mem_parts hpart

end Node

/-! ## Source order -/

/-- The source position of the fragment. -/
def Fragment.position? : Fragment → Option Position
  | plain _ => none
  | mapped position _ _ => some position

theorem Fragment.positions_eq (fragments : List Fragment) :
    fragments.filterMap position? = (fragments.filter isMapped).filterMap position? := by
  rw [List.filterMap_filter]
  apply List.filterMap_congr
  rintro (s | ⟨position, source, s⟩) - <;> rfl

theorem Spelling.positions_fragment (source : String) (transcript : List Spelling) :
    (transcript.map (Spelling.fragment source)).filterMap Fragment.position? =
      transcript.map (·.token.start) := by
  simp [List.filterMap_map, Function.comp_def, fragment, Fragment.position?]

namespace Node

variable {n : Node}

theorem token_of_mem_spell {t : Token} {a : Spelling} (h : a ∈ n.spell t) : a.token = t := by
  unfold spell at h
  split at h <;> simp_all

theorem pairwise_spell (t : Token) (R : Spelling → Spelling → Prop) : (n.spell t).Pairwise R := by
  unfold spell
  split <;> simp

theorem exists_holds_of_mem_transcript {n : Node} {a : Spelling} (h : a ∈ n.transcript) :
    ∃ inner, n.Holds inner ∧ a.token ∈ inner.tokens := by
  rw [transcript_eq] at h
  obtain ⟨part, hpart, ha⟩ := List.mem_flatMap.mp h
  cases part with
  | opening p => cases ha
  | token t =>
    rw [token_of_mem_spell ha]
    exact exists_holds_of_token_mem_parts hpart
  | node m =>
    obtain ⟨inner, hinner, ht⟩ := exists_holds_of_mem_transcript ha
    exact ⟨inner, (holds_of_mem_parts hpart).trans hinner, ht⟩
termination_by sizeOf n
decreasing_by exact sizeOf_lt_of_mem_parts hpart

/-- In source order a token of the transcript starts within the part that it belongs to. -/
theorem InOrder.starts_within (h : n.InOrder) {part : Part} (hpart : part ∈ n.parts) {a : Spelling}
    (ha : a ∈ part.transcript n) :
    ∃ r, part.range? = some r ∧ r.start ≤ a.token.start ∧ a.token.start ≤ r.stop := by
  cases part with
  | opening p => cases ha
  | token t =>
    rw [token_of_mem_spell ha]
    have ht : t.range.IsOrdered :=
      (h n (.self n)).1 _ (List.mem_filterMap.mpr ⟨.token t, hpart, rfl⟩)
    exact ⟨t.range, rfl, Std.le_refl _, ht⟩
  | node m =>
    have hm : m.InOrder := h.holds (holds_of_mem_parts hpart)
    obtain ⟨inner, hinner, ht⟩ := exists_holds_of_mem_transcript ha
    have hordered : a.token.range.IsOrdered :=
      (hm inner hinner).1 _ (List.mem_filterMap.mpr ⟨.token a.token, token_mem_parts ht, rfl⟩)
    obtain ⟨r, hr, hcontains⟩ := hm.contains_token hinner ht
    obtain ⟨hstart, hstop⟩ := Range.contains_iff.mp hcontains
    exact ⟨r, hr, hstart, Std.le_trans hordered hstop⟩

/-- In source order the tokens are written in the order in which they start. -/
theorem InOrder.pairwise_transcript {n : Node} (h : n.InOrder) :
    n.transcript.Pairwise fun a b => a.token.start ≤ b.token.start := by
  rw [transcript_eq, List.pairwise_flatMap]
  constructor
  · intro part hpart
    cases part with
    | token t => exact pairwise_spell t _
    | opening p => exact .nil
    | node m => exact (h.holds (holds_of_mem_parts hpart)).pairwise_transcript
  · -- A token of one part starts before that part ends, and so before the next part starts.
    have hranges := List.pairwise_filterMap.mp (h n (.self n)).pairwise
    apply hranges.imp_of_mem
    intro part next hpart hnext hstep a ha b hb
    obtain ⟨r, hr, -, hstop⟩ := h.starts_within hpart ha
    obtain ⟨r', hr', hstart, -⟩ := h.starts_within hnext hb
    exact Std.le_trans hstop (Std.le_trans (hstep r hr r' hr') hstart)
termination_by sizeOf n
decreasing_by exact sizeOf_lt_of_mem_parts hpart

end Node

/-! ## Whole trees -/

namespace State

variable (s : State) (tree : Tree)

/-- Where no namespace is known and none is around, a plain tree is written token by token: the
fragments with a source position are its tokens in written order, each once, at its start and as it
is spelled. So if the tokens are in source order, the positions never decrease; and they are if the
parts of all nodes are. -/
theorem walk_transcript (hresolver : s.resolver = Resolver.none)
    (hnamespace : s.enclosingNamespace? = none) (hplain : tree.node.Plain) :
    let fragments := (tree.walk s).1
    let transcript := tree.node.transcript
    fragments.filter Fragment.isMapped = transcript.map (Spelling.fragment s.source) ∧
    (transcript.IsChain (fun a b => a.token.start ≤ b.token.start) →
      (fragments.filterMap Fragment.position?).Pairwise (· ≤ ·)) ∧
    (tree.node.InOrder → (fragments.filterMap Fragment.position?).Pairwise (· ≤ ·)) := by
  intro fragments transcript
  have hscope : s.scope = .global := by
    rw [scope, hresolver, hnamespace]
    rfl
  have hskeleton : (s.site tree).slots = tree.node.skeleton .global := by
    rw [← hscope]
    cases tree <;> rfl
  have hmapped : fragments.filter Fragment.isMapped =
      transcript.map (Spelling.fragment s.source) := by
    rw [← hplain.mapped_skeleton s, ← hskeleton, ← (s.site tree).woven.mapped s]
    exact congrArg (List.filter _ ·.1) (tree.walk_eq_emit s)
  have hpositions : fragments.filterMap Fragment.position? = transcript.map (·.token.start) := by
    rw [Fragment.positions_eq, hmapped, Spelling.positions_fragment]
  rw [hpositions, List.pairwise_map]
  refine ⟨hmapped, ?_, Node.InOrder.pairwise_transcript⟩
  intro hchain
  have htrans : IsTrans Spelling fun a b => a.token.start ≤ b.token.start :=
    ⟨fun _ _ _ => Std.le_trans⟩
  exact List.isChain_iff_pairwise.mp hchain

/-- A string with a quote in it, printed inside of some node. The separator behind it is not
written. -/
theorem walk_transcript_print :
    let keyword : Token := .ofStart .printKeyword "print" ⟨0, 0⟩
    let text : Token := .ofStart .stringLiteral "\"a\"b\"" ⟨0, 6⟩
    let separator : Token := .ofStart .semicolon ";" ⟨0, 11⟩
    let items : List PrintItem := [.expression (.literal text), .separator separator]
    let tree : Tree := .statement (.print keyword items)
    let s : State := ⟨{}, .none, "f", 1, [.node default], {}⟩
    s.enclosingNamespace? = none ∧ tree.node.Plain ∧ tree.node.InOrder ∧
      (tree.walk s).1.filter Fragment.isMapped =
        [.mapped ⟨0, 0⟩ "f" "print", .mapped ⟨0, 6⟩ "f" "\"a\"\"b\""] ∧
      ((tree.walk s).1.filterMap Fragment.position?).Pairwise (· ≤ ·) := by
  intro keyword text separator items tree s
  let Fine (n : Node) : Prop :=
    ∀ inner, n.Holds inner → inner.isLowered = false ∧ Range.Sequential inner.partRanges
  have hliteral : Fine (.expression (.literal text)) :=
    Node.forall_holds_iff.mpr ⟨by decide, by simp [Node.children, Expression.children]⟩
  have hitem : Fine (.item (.expression (.literal text))) :=
    Node.forall_holds_iff.mpr ⟨by decide, List.forall_mem_singleton.mpr hliteral⟩
  have hseparator : Fine (.item (.separator separator)) :=
    Node.forall_holds_iff.mpr ⟨by decide, by simp [Node.children, PrintItem.children]⟩
  have htree : Fine tree.node :=
    Node.forall_holds_iff.mpr
      ⟨by decide, List.forall_mem_cons.mpr ⟨hitem, List.forall_mem_singleton.mpr hseparator⟩⟩
  have hplain : tree.node.Plain := fun inner hinner => (htree inner hinner).1
  have horder : tree.node.InOrder := fun inner hinner => (htree inner hinner).2
  obtain ⟨hmapped, -, hpositions⟩ := s.walk_transcript tree rfl rfl hplain
  refine ⟨rfl, hplain, horder, ?_, hpositions horder⟩
  rw [hmapped]
  simp [tree, items, Tree.node, Node.transcript_eq, Node.parts, Statement.parts, PrintItem.parts,
    Expression.parts, Part.expression, Part.transcript, Node.spell, Spelling.fragment]
  decide

end State

end Downlevel
