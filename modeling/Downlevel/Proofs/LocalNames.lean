import Downlevel.Proofs.CommentLines
import Downlevel.Proofs.GlobalNames

/-!
# Local variables and global names

Nobody keeps track of local variables: a name that a function binds is written where it is bound as
it stands there, and where it is read the resolver is asked about it, like about any bare name. The
answer is taken as it is. So a local variable keeps its name only as long as there is no function of
the same name in the innermost namespace; otherwise its reads become the global name of that
function (`State.emit_local_name`).
-/

namespace Downlevel

/-! ## Single pieces -/

theorem Balanced.inside_of_mem {pieces : List Piece} {piece : Piece} (h : Balanced pieces)
    (hpiece : piece ∈ pieces) : ∃ count, Inside pieces [piece] count := by
  obtain ⟨before, after, rfl⟩ := List.append_of_mem hpiece
  rw [Balanced, openLiterals_append] at h
  obtain ⟨count, hbefore, -⟩ := Option.bind_eq_some_iff.mp h
  refine ⟨count, before, 0, after, ?_, hbefore⟩
  rw [Piece.map_shift_zero, List.append_assoc, List.singleton_append]

/-- What a node writes of its own stands somewhere in what is emitted for it. -/
theorem Site.inside_of_own {site : Site} {piece : Piece} (h : .own piece ∈ site.slots) :
    ∃ count, Inside site.emit [piece] count :=
  site.balanced.inside_of_mem (site.woven.mem_of_own h)

/-! ## Functions and what lies in them -/

namespace Site

/-- The function that the site is or declares. -/
def function? (site : Site) : Option FunctionLiteral :=
  match site.tree with
  | .expression (.function f) => some f
  | .statement (.function _ f) => some f
  | _ => none

/-- The second site is the first one or lies in one of its parts, but in no function on the way and
in no dotted name. The name is that of the innermost namespace between the two. -/
inductive Reaches : Site → Site → Option DottedName → Prop
  | self (site : Site) : Reaches site site none
  | part {site part inner : Site} {literals : Nat} {name? : Option DottedName} :
      site.function? = none → site.dottedName? = none → .part part literals ∈ site.slots →
      Reaches part inner name? → Reaches site inner (name?.or site.namespaceName?)

/-- The body of a function that the site is or declares. -/
def body (site : Site) (f : FunctionLiteral) : Site :=
  ⟨site.scope, some f.range.start.line, .block f.body⟩

/-- The variable that a statement sets by itself. -/
def assigned? (site : Site) : Option Token :=
  match site.tree with
  | .statement (.assignment a) => some a.name
  | .statement (.forLoop _ counter _ _ _ _ _) => some counter.name
  | .statement (.forEach _ item _ _ _ _) => some item
  | .statement (.tryCatch _ _ _ exceptionName _ _) => some exceptionName
  | _ => none

/-- A name is bound in the function: by the function itself as a parameter, or by a statement in its
body. -/
inductive Binds (site : Site) (f : FunctionLiteral) : Site → Token → Prop
  | parameter {p : Parameter} : p ∈ f.parameters → Binds site f site p.name
  | statement {binder : Site} {name? : Option DottedName} {b : Token} :
      (site.body f).Reaches binder name? → binder.assigned? = some b → Binds site f binder b

/-- The site is a bare name in the body of the function. The other name is that of the innermost
namespace between the body and the site. -/
structure Reads (site : Site) (f : FunctionLiteral) (read : Site) (r : Token)
    (name? : Option DottedName) : Prop where
  reaches : (site.body f).Reaches read name?
  tree_eq : read.tree = .expression (.identifier r)

/-- The site is written as one identifier, which is the name up to case. -/
def WritesName (site : Site) (name : String) : Prop :=
  ∃ position text, site.emit = [.written position text] ∧
    Text.foldCase text = Text.foldCase name

variable {site inner : Site} {f : FunctionLiteral} {name? : Option DottedName}

/-! ### Both are written where they stand -/

theorem Contains.trans {middle : Site} {other? : Option DottedName} {m n : Nat}
    (h : site.Contains middle name? m) (hinner : middle.Contains inner other? n) :
    site.Contains inner (other?.or name?) (m + n) := by
  induction h with
  | self site =>
    rw [Option.or_none, Nat.zero_add]
    exact hinner
  | part hname hpart _ ih =>
    rw [← Option.or_assoc, Nat.add_assoc]
    exact .part hname hpart (ih hinner)

theorem Reaches.contains (h : site.Reaches inner name?) :
    ∃ count, site.Contains inner name? count := by
  induction h with
  | self site => exact ⟨0, .self site⟩
  | @part _ _ _ literals _ _ hname hpart _ ih =>
    obtain ⟨count, ih⟩ := ih
    exact ⟨literals + count, .part hname hpart ih⟩

/-- A function is no dotted name and no namespace, and it writes its own skeleton. -/
theorem slots_of_function? (h : site.function? = some f) : site.dottedName? = none ∧
    site.namespaceName? = none ∧ ∃ declared?, site.slots = f.slots site.scope declared? := by
  obtain ⟨scope, ownerLine?, tree⟩ := site
  cases tree with
  | body | block => cases h
  | expression e =>
    cases e with
    | function g =>
      cases h
      exact ⟨rfl, rfl, none, rfl⟩
    | _ => cases h
  | statement s =>
    cases s with
    | function name g =>
      cases h
      exact ⟨rfl, rfl, _, rfl⟩
    | _ => cases h

/-- What the body of a function contains the function contains. -/
theorem contains_of_body {count : Nat} (h : site.function? = some f)
    (hinner : (site.body f).Contains inner name? count) : site.Contains inner name? count := by
  obtain ⟨hdotted, hnamespace, declared?, hslots⟩ := slots_of_function? h
  have hbody : Slot.part (site.body f) 0 ∈ site.slots := by
    show Slot.block site.scope f.range.start.line f.body ∈ site.slots
    rw [hslots]
    simp [FunctionLiteral.slots]
  have hall := Contains.part hdotted hbody hinner
  rwa [hnamespace, Option.or_none, Nat.zero_add] at hall

theorem token_mem_slots_of_assigned? {b : Token} (h : site.assigned? = some b) :
    .own b.piece ∈ site.slots := by
  obtain ⟨scope, ownerLine?, tree⟩ := site
  show Slot.token b ∈ Site.slots _
  cases tree with
  | body | block | expression => cases h
  | statement s =>
    cases s with
    | assignment | forLoop | forEach | tryCatch =>
      cases h
      simp [slots, Statement.slots, Assignment.slots]
    | _ => cases h

/-- Whatever binds a name, the function itself or a statement in its body, the function contains it,
and the name is a token of it. -/
theorem Binds.contains {binder : Site} {b : Token} (hf : site.function? = some f)
    (h : site.Binds f binder b) : .own b.piece ∈ binder.slots ∧
      ∃ name? count, site.Contains binder name? count := by
  cases h with
  | parameter hp =>
    obtain ⟨-, -, declared?, hslots⟩ := slots_of_function? hf
    refine ⟨?_, none, 0, .self site⟩
    rw [hslots, FunctionLiteral.slots]
    have hname : Slot.own _ ∈ f.parameters.flatMap (Parameter.slots site.scope) :=
      List.mem_flatMap_of_mem hp List.mem_cons_self
    simp [hname]
  | statement hreaches hassigned =>
    obtain ⟨count, hcontains⟩ := hreaches.contains
    exact ⟨token_mem_slots_of_assigned? hassigned, _, count, contains_of_body hf hcontains⟩

end Site

/-! ## Reads ask the resolver -/

theorem Text.length_foldCase (s : String) : (foldCase s).length = s.length := by
  rw [foldCase, String.length_ofList, List.length_map, String.length_toList]

section Reading

variable {table : NamespaceTable} {n : DottedName} {r : Token}

theorem Expression.emit_identifier_of_unknown
    (h : table.isNamespaceFunction r.text (some (n.text .dotted)) = false) :
    Expression.emit ⟨table.resolver, some n.parts⟩ (.identifier r) = [.written r.start r.text] :=
  emit_identifier_iff.mpr h

theorem Expression.emit_identifier_of_known
    (h : table.isNamespaceFunction r.text (some (n.text .dotted)) = true) :
    Expression.emit ⟨table.resolver, some n.parts⟩ (.identifier r) =
      [.written r.start (n.text .flattened ++ "_" ++ r.text)] :=
  emit_sibling h

/-- A read keeps its name, up to case, exactly if there is no function of that name. -/
theorem Site.writesName_iff {ownerLine? : Option Nat} :
    WritesName ⟨⟨table.resolver, some n.parts⟩, ownerLine?, .expression (.identifier r)⟩ r.text ↔
      table.isNamespaceFunction r.text (some (n.text .dotted)) = false := by
  have hemit : emit ⟨⟨table.resolver, some n.parts⟩, ownerLine?, .expression (.identifier r)⟩ =
      Expression.emit ⟨table.resolver, some n.parts⟩ (.identifier r) := rfl
  rw [WritesName, hemit]
  cases hknown : table.isNamespaceFunction r.text (some (n.text .dotted)) with
  | false =>
    rw [Expression.emit_identifier_of_unknown hknown]
    exact iff_of_true ⟨r.start, r.text, rfl, rfl⟩ rfl
  | true =>
    rw [Expression.emit_identifier_of_known hknown]
    refine iff_of_false ?_ Bool.true_eq_false_eq_False
    rintro ⟨position, text, heq, hfold⟩
    cases heq
    -- with a namespace before it the name gets longer
    have hlength := congrArg String.length hfold
    simp [Text.length_foldCase] at hlength

end Reading

/-! ## Names in a body -/

/-- A function that sets a variable and prints one. -/
def setAndPrint (b r : Token) : FunctionLiteral where
  keyword := default
  opening := default
  parameters := []
  closing := default
  returnType? := none
  body := ⟨default, [.assignment ⟨b, default, .literal default⟩,
    .print default [.expression (.identifier r)]]⟩
  endToken := default

namespace Site

variable {site : Site} {b r : Token}

theorem binds_setAndPrint : site.Binds (setAndPrint b r)
    ⟨site.scope, none, .statement (.assignment ⟨b, default, .literal default⟩)⟩ b :=
  .statement (.part rfl rfl List.mem_cons_self (.self _)) rfl

theorem reads_setAndPrint : site.Reads (setAndPrint b r)
    ⟨site.scope, none, .expression (.identifier r)⟩ r none where
  reaches := by
    have hprint : Reaches ⟨site.scope, none, .statement (.print default
        [.expression (.identifier r)])⟩ ⟨site.scope, none, .expression (.identifier r)⟩ none :=
      .part rfl rfl (List.mem_cons_of_mem _ List.mem_cons_self) (.self _)
    exact .part rfl rfl (List.mem_cons_of_mem _ List.mem_cons_self) hprint
  tree_eq := rfl

end Site

namespace State

/-- In a function within a namespace, a name that is bound is written as it stands there. A read of
it is written as the same name, up to case, exactly if the table knows no function of that name in
the innermost namespace around the read; otherwise the read is the global name of that function. -/
theorem emit_local_name (s : State) (tree : Tree) {table : NamespaceTable}
    (hresolver : s.resolver = table.resolver) {site : Site} {f : FunctionLiteral}
    {name? : Option DottedName} {count : Nat} {n : DottedName}
    (hsite : (s.site tree).Contains site name? count) (hfunction : site.function? = some f)
    (hnamespace : name?.or s.enclosingNamespace? = some n) {binder read : Site} {b r : Token}
    {within? : Option DottedName} (hbinds : site.Binds f binder b)
    (hreads : site.Reads f read r within?) (hname : Text.foldCase r.text = Text.foldCase b.text) :
    let innermost := within?.getD n
    let known := table.isNamespaceFunction b.text (some (innermost.text .dotted))
    (∃ count, Inside binder.emit [.written b.start b.text] count) ∧
    (∃ count, s.Writes tree [.written b.start b.text] count) ∧
    (∃ count, s.Writes tree read.emit count) ∧
    (known = false → read.emit = [.written r.start r.text]) ∧
    (known = true → read.emit =
      [.written r.start (innermost.text .flattened ++ "_" ++ r.text)]) ∧
    (read.WritesName b.text ↔ known = false) := by
  intro innermost known
  obtain ⟨hslot, _, _, hbinder⟩ := hbinds.contains hfunction
  obtain ⟨_, hbinding⟩ := Site.inside_of_own hslot
  have hwritten : Inside (s.pieces tree) binder.emit _ := (hsite.trans hbinder).holds.inside
  obtain ⟨_, hcontains⟩ := hreads.reaches.contains
  have hread := hsite.trans (Site.contains_of_body hfunction hcontains)
  refine ⟨⟨_, hbinding⟩, ⟨_, writes_of_inside (hwritten.trans hbinding) rfl⟩,
    ⟨_, writes_of_inside hread.holds.inside read.balanced⟩, ?_⟩
  -- the namespace around the read decides what is asked
  have hinnermost : (within?.or name?).or s.enclosingNamespace? = some innermost := by
    rw [Option.or_assoc, hnamespace]
    cases within? <;> rfl
  have hscope : read.scope = ⟨s.resolver, some innermost.parts⟩ := by
    rw [scope_of_contains hread, hinnermost, Option.map_some]
  rw [hresolver] at hscope
  have hknown : known = table.isNamespaceFunction r.text (some (innermost.text .dotted)) :=
    (NamespaceTable.isNamespaceFunction_congr hname _).symm
  obtain ⟨scope, ownerLine?, _⟩ := read
  obtain rfl := hscope
  obtain rfl := hreads.tree_eq
  rw [hknown, Site.WritesName, ← hname]
  exact ⟨Expression.emit_identifier_of_unknown, Expression.emit_identifier_of_known,
    Site.writesName_iff⟩

/-- In a namespace `N` with a function `g`, a variable `h` that is set is printed as `H`. -/
theorem emit_local_name_unknown :
    let token (text : String) : Token := { (default : Token) with text }
    let table := NamespaceTable.ofRegistrations [.function "N" "g"]
    let s : State := ⟨{}, table.resolver, "", 0, [], {}⟩
    let f := setAndPrint (token "h") (token "H")
    let name : DottedName := ⟨token "N", []⟩
    let tree : Tree :=
      .statement (.namespaceBlock default name [.function (token "f") f] default)
    let inside (tree : Tree) : Site := ⟨s.scope.inside name, none, tree⟩
    let site := inside (.statement (.function (token "f") f))
    let binder := inside (.statement (.assignment ⟨token "h", default, .literal default⟩))
    let read := inside (.expression (.identifier (token "H")))
    ((s.site tree).Contains site (some name) 0 ∧ site.function? = some f ∧
      site.Binds f binder (token "h") ∧ site.Reads f read (token "H") none ∧
      Text.foldCase "H" = Text.foldCase "h") ∧
    read.emit = [.written default "H"] ∧ read.WritesName "h" := by
  intro token table s f name tree inside site binder read
  have hsite : (s.site tree).Contains site (some name) 0 :=
    .part rfl List.mem_cons_self (.self site)
  have hbinds : site.Binds f binder (token "h") := Site.binds_setAndPrint
  have hreads : site.Reads f read (token "H") none := Site.reads_setAndPrint
  have hname : Text.foldCase "H" = Text.foldCase "h" := by decide
  have hknown : table.isNamespaceFunction "h" (some (name.text .dotted)) = false := by decide
  obtain ⟨-, -, -, hunknown, -, hiff⟩ :=
    emit_local_name s tree rfl hsite rfl rfl hbinds hreads hname
  exact ⟨⟨hsite, rfl, hbinds, hreads, hname⟩, hunknown hknown, hiff.mpr hknown⟩

/-- If it is called `g`, like the function, it is printed as the function `N_g`. -/
theorem not_writesName_sibling :
    let token (text : String) : Token := { (default : Token) with text }
    let table := NamespaceTable.ofRegistrations [.function "N" "g"]
    let s : State := ⟨{}, table.resolver, "", 0, [], {}⟩
    let f := setAndPrint (token "g") (token "g")
    let name : DottedName := ⟨token "N", []⟩
    let tree : Tree :=
      .statement (.namespaceBlock default name [.function (token "f") f] default)
    let inside (tree : Tree) : Site := ⟨s.scope.inside name, none, tree⟩
    let site := inside (.statement (.function (token "f") f))
    let binder := inside (.statement (.assignment ⟨token "g", default, .literal default⟩))
    let read := inside (.expression (.identifier (token "g")))
    ((s.site tree).Contains site (some name) 0 ∧ site.function? = some f ∧
      site.Binds f binder (token "g") ∧ site.Reads f read (token "g") none) ∧
    .written default "g" ∈ binder.emit ∧ read.emit = [.written default "N_g"] ∧
      ¬ read.WritesName "g" := by
  intro token table s f name tree inside site binder read
  have hsite : (s.site tree).Contains site (some name) 0 :=
    .part rfl List.mem_cons_self (.self site)
  have hemit : read.emit = [.written default "N_g"] := by decide
  refine ⟨⟨hsite, rfl, Site.binds_setAndPrint, Site.reads_setAndPrint⟩, by decide, hemit, ?_⟩
  rintro ⟨position, text, heq, hfold⟩
  rw [hemit] at heq
  cases heq
  revert hfold
  decide

end State

end Downlevel
