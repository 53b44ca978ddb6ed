import Downlevel.Proofs.GlobalNames
import Mathlib.Data.Set.Card

/-!
# What a table answers

A table keeps two lists of texts: the paths of the namespaces, put together part by part while a
name is registered, and the functions, each as one text with the name of its namespace. Questions
are answered by looking a text up. Here the answers are given by the names that have been
registered, as lists of parts.

What has to be shown of the texts is that nothing gets lost in them. The parts of a name are found
again between the dots (`Text.splitAt_join`), so the paths are what the parts up to some part spell
(`NamespaceName.mem_closure_iff`). And the last dot of a qualified name is the one before the
function, so that `c` in `a.b` is not `b.c` in `a` (`NamespaceTable.qualified_eq_iff`).

Main statement: what a table answers after any registrations, and that neither their order nor
their repetition matters (`NamespaceTable.ofDeclarations_answers`).
-/

namespace Downlevel

/-! ## Texts and their parts -/

namespace Text

/-- Parts without a dot are found again between the dots. -/
theorem splitAt_join {parts : List String} (hne : parts ≠ [])
    (hdots : ∀ part ∈ parts, '.' ∉ part.toList) :
    splitAt '.' (join "." parts).toList = parts.map String.toList := by
  rw [splitAt_eq_splitOn, toList_join]
  apply List.splitOn_intercalate '.'
  · exact List.forall_mem_map.mpr hdots
  · simpa using hne

/-- Parts that are joined first are joined all the same. -/
theorem join_join_cons (separator first part : String) (rest : List String) :
    join separator ((first ++ separator ++ part) :: rest) =
      join separator (first :: part :: rest) := by
  cases rest with
  | nil => rfl
  | cons next rest => simp only [join, String.append_assoc]

theorem foldCase_eq_empty_iff {text : String} : foldCase text = "" ↔ text = "" := by
  rw [← String.toList_eq_nil_iff, ← String.toList_eq_nil_iff]
  simp [foldCase]

end Text

/-! ## Names that can be registered -/

/-- The text can be a part of a dotted name. -/
def IsNamePart (text : String) : Prop := text ≠ "" ∧ '.' ∉ text.toList

instance (text : String) : Decidable (IsNamePart text) :=
  inferInstanceAs (Decidable (_ ∧ _))

theorem IsNamePart.foldCase {text : String} (h : IsNamePart text) :
    IsNamePart (Text.foldCase text) :=
  ⟨mt Text.foldCase_eq_empty_iff.mp h.1, mt Text.dot_mem_foldCase.mp h.2⟩

/-- The name of a namespace, part by part. -/
structure NamespaceName where
  root : String
  rest : List String
  isNamePart : ∀ part ∈ root :: rest, IsNamePart part

namespace NamespaceName

/-- The parts of the name, from the root on. -/
def parts (n : NamespaceName) : List String := n.root :: n.rest

/-- The name as it is written. -/
def text (n : NamespaceName) : String := NameStyle.dotted.spell n.parts

/-- The path consists of the parts of the name up to one of them, in lower case. -/
def LeadsThrough (n : NamespaceName) (path : String) : Prop :=
  ∃ first, first ≠ [] ∧ first <+: n.parts ∧ path = Text.foldCase (NameStyle.dotted.spell first)

end NamespaceName

/-- A namespace, or a function of a namespace. -/
inductive Declaration where
  | namespaceName (name : NamespaceName)
  | function (enclosing : NamespaceName) (name : String) (isNamePart : IsNamePart name)

namespace Declaration

/-- The namespace that is declared, or the one that the function is in. -/
def enclosing : Declaration → NamespaceName
  | namespaceName name => name
  | function enclosing _ _ => enclosing

/-- The function, if it is one. -/
def function? : Declaration → Option String
  | namespaceName _ => none
  | function _ name _ => some name

/-- What is registered for the declaration. -/
def registration : Declaration → Registration
  | namespaceName name => .namespaceName name.text
  | function enclosing name _ => .function enclosing.text name

end Declaration

/-! ## The paths of a name -/

namespace NamespaceTable

/-- Behind a path that is not empty, the paths go on with one part more each time. -/
theorem mem_paths_iff {path : String} (hpath : path ≠ "") {parts : List String} {longer : String} :
    longer ∈ paths path.toList (parts.map String.toList) ↔
      ∃ first, first ≠ [] ∧ first <+: parts ∧ longer = Text.join "." (path :: first) := by
  induction parts generalizing path with
  | nil => simp [paths]
  | cons part rest ih =>
    have hnext : (if path.toList.isEmpty then part.toList else path.toList ++ '.' :: part.toList) =
        (path ++ "." ++ part).toList := by
      rw [if_neg (by simpa using hpath)]
      simp
    have hne : path ++ "." ++ part ≠ "" := by
      intro hempty
      have hlist := congrArg String.toList hempty
      simp at hlist
    rw [List.map_cons, paths, hnext, String.ofList_toList, List.mem_cons, ih hne]
    constructor
    · rintro (rfl | ⟨first, -, hprefix, rfl⟩)
      · exact ⟨[part], List.cons_ne_nil part [], List.cons_prefix_cons.mpr ⟨rfl, List.nil_prefix⟩,
          rfl⟩
      · exact ⟨part :: first, List.cons_ne_nil part first,
          List.cons_prefix_cons.mpr ⟨rfl, hprefix⟩, Text.join_join_cons "." path part first⟩
    · rintro ⟨first, hfirst, hprefix, rfl⟩
      rcases List.prefix_cons_iff.mp hprefix with rfl | ⟨more, rfl, hmore⟩
      · exact absurd rfl hfirst
      · by_cases hlast : more = []
        · subst hlast
          exact .inl rfl
        · exact .inr ⟨more, hlast, hmore, (Text.join_join_cons "." path part more).symm⟩

end NamespaceTable

namespace NamespaceName

open NamespaceTable (closure paths)

theorem foldCase_spell (parts : List String) :
    Text.foldCase (NameStyle.dotted.spell parts) = Text.join "." (parts.map Text.foldCase) :=
  Text.foldCase_join ..

/-- What is registered for a name are the paths through its parts. -/
theorem mem_closure_iff (n : NamespaceName) {path : String} :
    path ∈ closure n.text ↔ n.LeadsThrough path := by
  obtain ⟨root, rest, hparts⟩ := n
  obtain ⟨hroot, -⟩ := List.forall_mem_cons.mp hparts
  have hsplit : Text.splitAt '.' (Text.foldCase (NameStyle.dotted.spell (root :: rest))).toList =
      (Text.foldCase root).toList :: (rest.map Text.foldCase).map String.toList := by
    rw [foldCase_spell]
    apply Text.splitAt_join (by simp)
    intro part hpart
    obtain ⟨written, hwritten, rfl⟩ := List.mem_map.mp hpart
    exact (hparts written hwritten).foldCase.2
  show path ∈ paths [] (Text.splitAt '.' (Text.foldCase (NameStyle.dotted.spell
    (root :: rest))).toList) ↔ _
  rw [hsplit, paths]
  simp only [List.isEmpty_nil, if_true, String.ofList_toList, List.mem_cons]
  rw [NamespaceTable.mem_paths_iff hroot.foldCase.1]
  constructor
  · rintro (rfl | ⟨first, -, hprefix, rfl⟩)
    · exact ⟨[root], List.cons_ne_nil root [], List.cons_prefix_cons.mpr ⟨rfl, List.nil_prefix⟩,
        rfl⟩
    · obtain ⟨written, hwritten, rfl⟩ := List.prefix_map_iff.mp hprefix
      exact ⟨root :: written, List.cons_ne_nil root written,
        List.cons_prefix_cons.mpr ⟨rfl, hwritten⟩, (foldCase_spell (root :: written)).symm⟩
  · rintro ⟨first, hfirst, hprefix, rfl⟩
    rcases List.prefix_cons_iff.mp hprefix with rfl | ⟨more, rfl, hmore⟩
    · exact absurd rfl hfirst
    · by_cases hlast : more = []
      · subst hlast
        exact .inl rfl
      · refine .inr ⟨more.map Text.foldCase, by simpa using hlast, ?_, foldCase_spell _⟩
        exact List.prefix_map_iff.mpr ⟨more, hmore, rfl⟩

/-- A path without a dot leads to the root and no further. -/
theorem leadsThrough_iff_of_dotless (n : NamespaceName) {path : String}
    (hpath : '.' ∉ path.toList) : n.LeadsThrough path ↔ path = Text.foldCase n.root := by
  constructor
  · rintro ⟨first, hfirst, hprefix, rfl⟩
    rcases List.prefix_cons_iff.mp hprefix with rfl | ⟨more, rfl, -⟩
    · exact absurd rfl hfirst
    · cases more with
      | nil => rfl
      | cons next more =>
        rw [Text.dot_mem_foldCase, NameStyle.spell, Text.join] at hpath
        simp [NameStyle.separator] at hpath
  · rintro rfl
    exact ⟨[n.root], List.cons_ne_nil _ _, List.cons_prefix_cons.mpr ⟨rfl, List.nil_prefix⟩, rfl⟩

end NamespaceName

/-! ## Tables that have been filled -/

namespace Text

/-- What stands before the last dot is determined, and so is what stands behind it. -/
theorem append_dot_inj {first second name other : List Char} (hname : '.' ∉ name)
    (hother : '.' ∉ other) (h : first ++ '.' :: name = second ++ '.' :: other) :
    first = second ∧ name = other := by
  -- between the two dots there would be a dot in one of the names
  have hnone {between name other : List Char} (hname : '.' ∉ name)
      (h : '.' :: name = between ++ '.' :: other) : between = [] := by
    cases between with
    | nil => rfl
    | cons c rest =>
      have htail : name = rest ++ '.' :: other := (List.cons.inj h).2
      exact absurd (htail ▸ List.mem_append_right rest List.mem_cons_self) hname
  rcases List.append_eq_append_iff.mp h with ⟨between, rfl, hrest⟩ | ⟨between, rfl, hrest⟩
  · obtain rfl := hnone hname hrest
    exact ⟨(List.append_nil first).symm, (List.cons.inj hrest).2⟩
  · obtain rfl := hnone hother hrest
    exact ⟨List.append_nil second, (List.cons.inj hrest).2.symm⟩

end Text

namespace Registration

/-- The namespace that is registered, by itself or with a function. -/
def enclosing : Registration → String
  | namespaceName name => name
  | function enclosing _ => enclosing

/-- The qualified name of the function that is registered, if it is one. -/
def qualified? : Registration → Option String
  | namespaceName _ => none
  | function enclosing name => some (NamespaceTable.qualified enclosing name)

end Registration

namespace NamespaceTable

/-- Two qualified names are the same text exactly if namespace and function are the same up to
case. -/
theorem qualified_eq_iff {outer inner name other : String} (hname : '.' ∉ name.toList)
    (hother : '.' ∉ other.toList) : qualified outer name = qualified inner other ↔
      Text.foldCase outer = Text.foldCase inner ∧ Text.foldCase name = Text.foldCase other := by
  have htext (enclosing name : String) : (qualified enclosing name).toList =
      (Text.foldCase enclosing).toList ++ '.' :: (Text.foldCase name).toList := by
    rw [qualified, Text.foldCase_append, Text.foldCase_append, String.toList_append,
      String.toList_append, List.append_assoc]
    rfl
  rw [← String.toList_inj, htext, htext]
  constructor
  · intro h
    obtain ⟨houter, hfunction⟩ := Text.append_dot_inj (mt Text.dot_mem_foldCase.mp hname)
      (mt Text.dot_mem_foldCase.mp hother) h
    exact ⟨String.toList_inj.mp houter, String.toList_inj.mp hfunction⟩
  · rintro ⟨houter, hfunction⟩
    rw [houter, hfunction]

variable {table : NamespaceTable} {registrations : List Registration}

theorem mem_namespaces_register {registration : Registration} {path : String} :
    path ∈ (table.register registration).namespaces ↔
      path ∈ closure registration.enclosing ∨ path ∈ table.namespaces := by
  cases registration with
  | namespaceName name => exact mem_addNamespace_iff
  | function enclosing name => exact mem_addFunction_iff

theorem mem_functions_register {registration : Registration} {f : String} :
    f ∈ (table.register registration).functions ↔
      registration.qualified? = some f ∨ f ∈ table.functions := by
  cases registration with
  | namespaceName name => simp [register, Registration.qualified?]
  | function enclosing name =>
    rw [register, functions_addFunction, List.mem_insert_iff, Registration.qualified?,
      Option.some_inj]
    exact or_congr_left eq_comm

/-- A list that registrations add to has what each of them adds. -/
theorem mem_foldl_register {list : NamespaceTable → List String}
    {Adds : Registration → String → Prop}
    (hstep : ∀ table registration text,
      text ∈ list (table.register registration) ↔ Adds registration text ∨ text ∈ list table)
    {text : String} : text ∈ list (registrations.foldl register table) ↔
      (∃ registration ∈ registrations, Adds registration text) ∨ text ∈ list table := by
  induction registrations generalizing table with
  | nil => simp
  | cons first rest ih =>
    rw [List.foldl_cons, ih, hstep]
    simp only [List.mem_cons, exists_eq_or_imp]
    rw [or_left_comm, or_assoc]

/-- The namespaces of a table are those on the paths of the names. -/
theorem mem_namespaces_iff {path : String} : path ∈ (ofRegistrations registrations).namespaces ↔
    ∃ registration ∈ registrations, path ∈ closure registration.enclosing := by
  rw [ofRegistrations, mem_foldl_register fun _ _ _ => mem_namespaces_register]
  simp

theorem mem_functions_iff {f : String} : f ∈ (ofRegistrations registrations).functions ↔
    ∃ registration ∈ registrations, registration.qualified? = some f := by
  rw [ofRegistrations, mem_foldl_register fun _ _ _ => mem_functions_register]
  simp

theorem nodup_addNamespace {table : NamespaceTable} (h : table.namespaces.Nodup) (name : String) :
    (table.addNamespace name).namespaces.Nodup := by
  simp only [addNamespace]
  exact List.foldlRecOn (motive := List.Nodup) (closure name) _ h
    fun _ hknown _ _ => hknown.insert

/-- No namespace is counted twice. -/
theorem nodup_namespaces (registrations : List Registration) :
    (ofRegistrations registrations).namespaces.Nodup := by
  apply List.foldlRecOn (motive := fun table => table.namespaces.Nodup) registrations register
  · exact List.nodup_nil
  · intro table h registration _
    cases registration with
    | namespaceName name =>
      rw [register]
      exact nodup_addNamespace h name
    | function enclosing name =>
      simp only [register, addFunction]
      exact nodup_addNamespace h enclosing

/-- What a table knows of namespaces and of functions is all that it answers from. -/
theorem answers_congr {table other : NamespaceTable}
    (hnamespaces : ∀ path, path ∈ other.namespaces ↔ path ∈ table.namespaces)
    (hfunctions : ∀ f, f ∈ other.functions ↔ f ∈ table.functions) :
    other.isNamespace = table.isNamespace ∧ other.startsWithNamespace = table.startsWithNamespace ∧
      other.isNamespaceFunction = table.isNamespaceFunction := by
  have hnamespace : other.isNamespace = table.isNamespace := by
    funext name
    apply Bool.eq_iff_iff.mpr
    rw [isNamespace, isNamespace, List.contains_iff_mem, List.contains_iff_mem, hnamespaces]
  refine ⟨hnamespace, ?_, ?_⟩
  · funext parts
    cases parts with
    | nil => rfl
    | cons root rest => exact congrFun hnamespace root
  · funext name enclosing
    apply Bool.eq_iff_iff.mpr
    cases enclosing <;>
      rw [isNamespaceFunction, isNamespaceFunction, List.contains_iff_mem, List.contains_iff_mem,
        hfunctions]

/-! ## Answers -/

section Answers

variable {declarations : List Declaration}

/-- The table after the registrations for some declarations. -/
def ofDeclarations (declarations : List Declaration) : NamespaceTable :=
  ofRegistrations (declarations.map Declaration.registration)

theorem mem_namespaces_ofDeclarations {path : String} :
    path ∈ (ofDeclarations declarations).namespaces ↔
      ∃ d ∈ declarations, d.enclosing.LeadsThrough path := by
  have henclosing (d : Declaration) : d.registration.enclosing = d.enclosing.text := by
    cases d <;> rfl
  simp only [ofDeclarations, mem_namespaces_iff, List.mem_map, exists_exists_and_eq_and, henclosing,
    NamespaceName.mem_closure_iff]

theorem mem_functions_ofDeclarations {f : String} :
    f ∈ (ofDeclarations declarations).functions ↔
      ∃ d ∈ declarations, ∃ name ∈ d.function?, f = qualified d.enclosing.text name := by
  have hqualified (d : Declaration) : d.registration.qualified? = some f ↔
      ∃ name ∈ d.function?, f = qualified d.enclosing.text name := by
    cases d with
    | namespaceName name => simp [Declaration.registration, Declaration.function?,
        Registration.qualified?]
    | function enclosing name =>
      simp [Declaration.registration, Declaration.function?, Declaration.enclosing,
        Registration.qualified?, eq_comm]
  simp only [ofDeclarations, mem_functions_iff, List.mem_map, exists_exists_and_eq_and, hqualified]

theorem isNamespace_iff {name : String} : (ofDeclarations declarations).isNamespace name = true ↔
    ∃ d ∈ declarations, d.enclosing.LeadsThrough (Text.foldCase name) := by
  rw [isNamespace, List.contains_iff_mem, mem_namespaces_ofDeclarations]

theorem startsWithNamespace_iff {parts : List String} (hdots : ∀ part ∈ parts, '.' ∉ part.toList) :
    (ofDeclarations declarations).startsWithNamespace parts = true ↔ ∃ root ∈ parts.head?,
      ∃ d ∈ declarations, Text.foldCase root = Text.foldCase d.enclosing.root := by
  cases parts with
  | nil => simp [startsWithNamespace]
  | cons root rest =>
    have hroot : '.' ∉ (Text.foldCase root).toList :=
      mt Text.dot_mem_foldCase.mp (hdots root List.mem_cons_self)
    rw [startsWithNamespace, isNamespace_iff]
    simp only [NamespaceName.leadsThrough_iff_of_dotless _ hroot, List.head?_cons,
      Option.mem_some_iff, exists_eq_left']

theorem isNamespaceFunction_iff {name : String} (hname : '.' ∉ name.toList)
    {enclosing : Option String} :
    (ofDeclarations declarations).isNamespaceFunction name enclosing = true ↔
      ∃ outer ∈ enclosing, ∃ d ∈ declarations, ∃ f ∈ d.function?,
        Text.foldCase outer = Text.foldCase d.enclosing.text ∧
          Text.foldCase name = Text.foldCase f := by
  cases enclosing with
  | none =>
    have hnone := not_isNamespaceFunction_of_dotless
      (qualified_ofRegistrations (declarations.map Declaration.registration)) hname
    simp [ofDeclarations, hnone]
  | some outer =>
    have hdotless {d : Declaration} {f : String} (hf : f ∈ d.function?) : '.' ∉ f.toList := by
      cases d with
      | namespaceName => cases hf
      | function _ _ hpart =>
        obtain rfl := Option.mem_some.mp hf
        exact hpart.2
    rw [isNamespaceFunction, List.contains_iff_mem, mem_functions_ofDeclarations]
    simp only [Option.mem_some_iff, exists_eq_left']
    constructor
    · rintro ⟨d, hd, f, hf, htext⟩
      exact ⟨d, hd, f, hf, (qualified_eq_iff hname (hdotless hf)).mp htext⟩
    · rintro ⟨d, hd, f, hf, hsame⟩
      exact ⟨d, hd, f, hf, (qualified_eq_iff hname (hdotless hf)).mpr hsame⟩

theorem namespaceCount_eq_ncard : (ofDeclarations declarations).namespaceCount =
    {path | ∃ d ∈ declarations, d.enclosing.LeadsThrough path}.ncard := by
  have hset : {path | ∃ d ∈ declarations, d.enclosing.LeadsThrough path} =
      ((ofDeclarations declarations).namespaces.toFinset : Set String) := by
    ext path
    rw [List.coe_toFinset]
    exact mem_namespaces_ofDeclarations.symm
  rw [hset, Set.ncard_coe_finset]
  exact (List.toFinset_card_of_nodup (nodup_namespaces _)).symm

/-- After registrations a table answers as the declarations say, without regard to case. It knows
the namespaces that lie on the way to a declared one, and as the start of a dotted name each root
of these. It knows a function in the namespace that the function was declared in, and outside of
all namespaces none. It counts every namespace once. And all that depends only on what has been
declared, and not on when or how often. -/
theorem ofDeclarations_answers (declarations : List Declaration) :
    let table := ofDeclarations declarations
    (∀ name, table.isNamespace name = true ↔
      ∃ d ∈ declarations, d.enclosing.LeadsThrough (Text.foldCase name)) ∧
    (∀ parts : List String, (∀ part ∈ parts, '.' ∉ part.toList) →
      (table.startsWithNamespace parts = true ↔ ∃ root ∈ parts.head?, ∃ d ∈ declarations,
        Text.foldCase root = Text.foldCase d.enclosing.root)) ∧
    (∀ (name : String) (enclosing : Option String), '.' ∉ name.toList →
      (table.isNamespaceFunction name enclosing = true ↔ ∃ outer ∈ enclosing,
        ∃ d ∈ declarations, ∃ f ∈ d.function?,
          Text.foldCase outer = Text.foldCase d.enclosing.text ∧
            Text.foldCase name = Text.foldCase f)) ∧
    table.namespaceCount = {path | ∃ d ∈ declarations, d.enclosing.LeadsThrough path}.ncard ∧
    ∀ others : List Declaration, (∀ d, d ∈ others ↔ d ∈ declarations) →
      let other := ofDeclarations others
      other.isNamespace = table.isNamespace ∧
        other.startsWithNamespace = table.startsWithNamespace ∧
        other.isNamespaceFunction = table.isNamespaceFunction ∧
        other.namespaceCount = table.namespaceCount := by
  intro table
  refine ⟨fun name => isNamespace_iff, fun parts hdots => startsWithNamespace_iff hdots,
    fun name enclosing hname => isNamespaceFunction_iff hname, namespaceCount_eq_ncard, ?_⟩
  intro others hsame other
  have hnamespaces (path : String) : path ∈ other.namespaces ↔ path ∈ table.namespaces := by
    show path ∈ (ofDeclarations others).namespaces ↔ path ∈ (ofDeclarations declarations).namespaces
    simp only [mem_namespaces_ofDeclarations, hsame]
  have hfunctions (f : String) : f ∈ other.functions ↔ f ∈ table.functions := by
    show f ∈ (ofDeclarations others).functions ↔ f ∈ (ofDeclarations declarations).functions
    simp only [mem_functions_ofDeclarations, hsame]
  have hcount : other.namespaceCount = table.namespaceCount := by
    show (ofDeclarations others).namespaceCount = (ofDeclarations declarations).namespaceCount
    simp only [namespaceCount_eq_ncard, hsame]
  obtain ⟨hnamespace, hstarts, hfunction⟩ := answers_congr hnamespaces hfunctions
  exact ⟨hnamespace, hstarts, hfunction, hcount⟩

/-- A function `helper` of `Foo.Bar`, and then `Foo` by itself; or the other way round, and `Foo`
twice. -/
theorem ofDeclarations_answers_repeated :
    let fooBar : NamespaceName := ⟨"Foo", ["Bar"], by decide⟩
    let foo : NamespaceName := ⟨"Foo", [], by decide⟩
    let helper : Declaration := .function fooBar "helper" (by decide)
    let table := ofDeclarations [helper, .namespaceName foo]
    let other := ofDeclarations [.namespaceName foo, helper, .namespaceName foo]
    table.isNamespace "FOO.bar" = true ∧
      ((∀ part ∈ ["foo", "x"], '.' ∉ part.toList) ∧
        table.startsWithNamespace ["foo", "x"] = true) ∧
      ('.' ∉ "HELPER".toList ∧ table.isNamespaceFunction "HELPER" (some "foo.BAR") = true ∧
        table.isNamespaceFunction "HELPER" none = false) ∧
      other.isNamespace = table.isNamespace ∧ other.namespaceCount = table.namespaceCount := by
  intro fooBar foo helper table other
  obtain ⟨hnamespace, hstarts, hfunction, -, hothers⟩ :=
    ofDeclarations_answers [helper, .namespaceName foo]
  have hdots : ∀ part ∈ ["foo", "x"], '.' ∉ part.toList := by decide
  have hdotless : '.' ∉ "HELPER".toList := by decide
  obtain ⟨hsame, -, -, hcount⟩ :=
    hothers [.namespaceName foo, helper, .namespaceName foo] (by simp)
  refine ⟨(hnamespace _).mpr ?_, ⟨hdots, (hstarts _ hdots).mpr ?_⟩, ⟨hdotless, ?_, ?_⟩, hsame,
    hcount⟩
  · exact ⟨helper, List.mem_cons_self, ["Foo", "Bar"], by decide, List.prefix_rfl, by decide⟩
  · exact ⟨"foo", rfl, helper, List.mem_cons_self, by decide⟩
  · refine (hfunction _ _ hdotless).mpr ?_
    exact ⟨"foo.BAR", rfl, helper, List.mem_cons_self, "helper", rfl, by decide, by decide⟩
  · rw [Bool.eq_false_iff, ne_eq, hfunction _ _ hdotless]
    rintro ⟨outer, houter, -⟩
    cases houter

end Answers

end NamespaceTable

end Downlevel
