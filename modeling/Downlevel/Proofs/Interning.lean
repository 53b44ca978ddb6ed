import Downlevel.Proofs.Resolution

/-!
# Interned sources and names

A generator registers source paths and names, each in a registry of its own, while mappings are
added and maps are generated in between. A mapping knows its source by index only, so an index must
stay that of one path for good. What makes it so is that the list and the table of a registry agree
(`Registry.Agrees`): the table finds what the list has, hence nothing is listed twice, and the list
only grows at its end.

A call changes a registry by at most one text (`Generator.registry_call`). From this the invariant
`Generator.Interns` is carried through any sequence of calls. Main statement:
`Generator.run_interns`.
-/

namespace Downlevel.SourceMap

/-! ## Calls -/

/-- What a generator registers texts for. -/
inductive Family where
  | sources
  | names
  deriving DecidableEq

/-- What can be asked of a generator. -/
inductive Call where
  | register (family : Family) (text : String)
  | addMapping (m : Mapping)
  | setSourceRoot (sourceRoot : Option String)
  | generate
  deriving DecidableEq

/-- What a call gives back. -/
inductive Answer where
  | nothing
  | index (index : Nat)
  | map (map : SourceMap)
  deriving DecidableEq

namespace Family

/-- The registry of a family. -/
def registry : Family → Generator → Registry
  | sources, g => g.sources
  | names, g => g.names

/-- What a source map lists for a family. -/
def listed : Family → SourceMap → List String
  | sources, m => m.sources
  | names, m => m.names

/-- The text that a call registers for the family, if it registers one. -/
def registered? (family : Family) : Call → Option String
  | .register other text => if other = family then some text else none
  | _ => none

/-- The texts that calls register for the family, in the order of the calls. -/
def registered (family : Family) (calls : List Call) : List String :=
  calls.filterMap family.registered?

end Family

namespace Generator

/-- Registers a text; the result also gives its index. -/
def register (g : Generator) : Family → String → Generator × Nat
  | .sources, path => g.addSource path
  | .names, name => g.addName name

/-- A call, with its answer. -/
def call (g : Generator) : Call → Generator × Answer
  | .register family text => ((g.register family text).1, .index (g.register family text).2)
  | .addMapping m => (g.addMapping m, .nothing)
  | .setSourceRoot sourceRoot => (g.setSourceRoot sourceRoot, .nothing)
  | .generate => (g, .map g.generate)

/-- Calls one after the other, with their answers. -/
def run (g : Generator) : List Call → Generator × List Answer
  | [] => (g, [])
  | c :: rest =>
    let first := g.call c
    let others := first.1.run rest
    (others.1, first.2 :: others.2)

theorem run_append (g : Generator) (calls more : List Call) :
    g.run (calls ++ more) =
      (((g.run calls).1.run more).1, (g.run calls).2 ++ ((g.run calls).1.run more).2) := by
  induction calls generalizing g with
  | nil => rfl
  | cons c rest ih =>
    rw [List.cons_append, run, ih]
    rfl

/-- The answer to a call depends on the calls before it. -/
theorem getElem?_answers (g : Generator) (calls : List Call) (i : Nat) :
    (g.run calls).2[i]? = calls[i]?.map fun c => ((g.run (calls.take i)).1.call c).2 := by
  induction calls generalizing g i with
  | nil => rfl
  | cons c rest ih =>
    cases i with
    | zero => rfl
    | succ i =>
      rw [run, List.getElem?_cons_succ, ih, List.getElem?_cons_succ, List.take_succ_cons]
      rfl

/-! ## One call -/

variable (g : Generator) (family : Family)

theorem listed_generate : family.listed g.generate = (family.registry g).entries := by
  cases family <;> rfl

/-- A call registers a text of a family, or it leaves the registry of the family as it is. -/
theorem registry_call (c : Call) : family.registry (g.call c).1 =
    match family.registered? c with
    | some text => ((family.registry g).add text).1
    | none => family.registry g := by
  cases c with
  | register other text => cases family <;> cases other <;> rfl
  | addMapping m =>
    cases family with
    | sources => exact sources_addMapping g m
    | names =>
      show (g.addMapping m).names = g.names
      unfold addMapping
      split <;> rfl
  | setSourceRoot sourceRoot => cases family <;> rfl
  | generate => rfl

theorem answer_register (text : String) :
    (g.call (.register family text)).2 = .index ((family.registry g).add text).2 := by
  cases family <;> rfl

theorem registry_call_register (text : String) :
    family.registry (g.call (.register family text)).1 =
      ((family.registry g).add text).1 := by
  rw [registry_call, Family.registered?, if_pos rfl]

theorem entries_isPrefix_call (c : Call) :
    (family.registry g).entries <+: (family.registry (g.call c).1).entries := by
  rw [registry_call]
  cases family.registered? c with
  | none => exact List.prefix_rfl
  | some text => exact (family.registry g).entries_isPrefix_add text

theorem entries_isPrefix_run (calls : List Call) :
    (family.registry g).entries <+: (family.registry (g.run calls).1).entries := by
  induction calls generalizing g with
  | nil => exact List.prefix_rfl
  | cons c rest ih => exact (g.entries_isPrefix_call family c).trans (ih (g.call c).1)

end Generator

/-! ## Order of first registration -/

/-- The second list has every text of the first, each once and in the order in which they first
occur there. -/
structure ListsOnce (given listed : List String) : Prop where
  nodup : listed.Nodup
  mem_iff : ∀ text, text ∈ listed ↔ text ∈ given
  ordered : listed.Pairwise fun text later => given.idxOf text < given.idxOf later

namespace ListsOnce

variable {given listed : List String} {text : String}

theorem nil : ListsOnce [] [] := ⟨List.nodup_nil, fun _ => Iff.rfl, List.Pairwise.nil⟩

/-- More texts at the end do not change where the others first occur. -/
theorem idxOf_append (h : ListsOnce given listed) {other : String} (hother : other ∈ listed)
    (more : List String) : (given ++ more).idxOf other = given.idxOf other :=
  List.idxOf_append_of_mem ((h.mem_iff other).mp hother)

theorem ordered_append (h : ListsOnce given listed) (more : List String) :
    listed.Pairwise fun text later =>
      (given ++ more).idxOf text < (given ++ more).idxOf later := by
  refine h.ordered.imp_of_mem ?_
  intro text later htext hlater hlt
  rw [h.idxOf_append htext, h.idxOf_append hlater]
  exact hlt

theorem again (h : ListsOnce given listed) (htext : text ∈ listed) :
    ListsOnce (given ++ [text]) listed where
  nodup := h.nodup
  mem_iff := by
    intro other
    rw [h.mem_iff, List.mem_append, List.mem_singleton]
    constructor
    · exact Or.inl
    · rintro (hother | rfl)
      · exact hother
      · exact (h.mem_iff other).mp htext
  ordered := h.ordered_append [text]

theorem concat (h : ListsOnce given listed) (hnew : text ∉ listed) :
    ListsOnce (given ++ [text]) (listed ++ [text]) where
  nodup := by
    rw [← List.concat_eq_append]
    exact h.nodup.concat hnew
  mem_iff := by
    intro other
    rw [List.mem_append, List.mem_append, h.mem_iff]
  ordered := by
    rw [List.pairwise_append]
    refine ⟨h.ordered_append [text], List.pairwise_singleton _ _, ?_⟩
    intro other hother last hlast
    obtain rfl := List.mem_singleton.mp hlast
    -- the new text first occurs behind all that has been given before
    have hgiven : last ∉ given := mt (h.mem_iff last).mpr hnew
    rw [h.idxOf_append hother, List.idxOf_append_of_notMem hgiven]
    have hlt := List.idxOf_lt_length_of_mem ((h.mem_iff other).mp hother)
    omega

end ListsOnce

/-! ## Any number of calls -/

namespace Generator

/-- What holds of a family after calls: its registry agrees with itself, and it lists the texts that
the calls registered. -/
structure Interns (family : Family) (g : Generator) (calls : List Call) : Prop where
  agrees : (family.registry g).Agrees
  lists : ListsOnce (family.registered calls) (family.registry g).entries

variable {g : Generator} {family : Family} {calls : List Call}

theorem Interns.fresh (family : Family) (file : String) :
    Interns family { file } [] where
  agrees := by
    cases family <;> exact Registry.agrees_empty
  lists := by
    cases family <;> exact ListsOnce.nil

theorem Interns.call (h : Interns family g calls) (c : Call) :
    Interns family (g.call c).1 (calls ++ [c]) := by
  have hregistered : family.registered (calls ++ [c]) =
      family.registered calls ++ (family.registered? c).toList := by
    rw [Family.registered, List.filterMap_append, List.filterMap_cons, List.filterMap_nil]
    cases family.registered? c <;> rfl
  have hregistry := g.registry_call family c
  cases htext : family.registered? c with
  | none =>
    rw [htext] at hregistered hregistry
    rw [Option.toList_none, List.append_nil] at hregistered
    exact ⟨hregistry ▸ h.agrees, hregistered ▸ hregistry ▸ h.lists⟩
  | some text =>
    rw [htext] at hregistered hregistry
    refine ⟨hregistry ▸ h.agrees.add text, ?_⟩
    rw [hregistered, hregistry, h.agrees.entries_add, Option.toList_some]
    split
    next hmem => exact h.lists.again hmem
    next hmem => exact h.lists.concat hmem

theorem Interns.run (h : Interns family g calls) (more : List Call) :
    Interns family (g.run more).1 (calls ++ more) := by
  induction more generalizing g calls with
  | nil =>
    rw [List.append_nil]
    exact h
  | cons c rest ih =>
    have hrest := ih (h.call c)
    rw [List.append_assoc] at hrest
    exact hrest

theorem interns_run (family : Family) (file : String) (calls : List Call) :
    Interns family (run { file } calls).1 calls :=
  (Interns.fresh family file).run calls

/-! ## What was answered, and what is listed later -/

variable {i j : Nat} {text : String}

theorem run_take_succ {c : Call} (hc : calls[i]? = some c) :
    (g.run (calls.take (i + 1))).1 = ((g.run (calls.take i)).1.call c).1 := by
  rw [List.take_add_one, hc, Option.toList_some, run_append]
  rfl

theorem entries_isPrefix_take (family : Family) (h : i ≤ j) :
    (family.registry (g.run (calls.take i)).1).entries <+:
      (family.registry (g.run (calls.take j)).1).entries := by
  obtain ⟨between, hbetween⟩ : calls.take i <+: calls.take j := List.take_prefix_take_left h
  rw [← hbetween, run_append]
  exact entries_isPrefix_run _ family between

/-- The index that is given for a text is that of the text from then on. -/
theorem exists_index_of_register (hagrees : (family.registry (g.run (calls.take i)).1).Agrees)
    (hcall : calls[i]? = some (.register family text)) :
    ∃ index, (g.run calls).2[i]? = some (.index index) ∧ ∀ j, i < j →
      (family.registry (g.run (calls.take j)).1).entries[index]? = some text := by
  refine ⟨_, by rw [getElem?_answers, hcall, Option.map_some, answer_register], ?_⟩
  intro j hlt
  have hplace := hagrees.getElem?_add text
  rw [← registry_call_register, ← run_take_succ hcall] at hplace
  exact getElem?_of_isPrefix (entries_isPrefix_take family hlt) hplace

/-- A map that is given lists what has been registered by then. -/
theorem listed_of_answer {map : SourceMap} (h : (g.run calls).2[j]? = some (.map map)) :
    family.listed map = (family.registry (g.run (calls.take j)).1).entries := by
  rw [getElem?_answers] at h
  obtain ⟨c, -, hanswer⟩ := Option.map_eq_some_iff.mp h
  cases c with
  | generate =>
    obtain rfl := Answer.map.inj hanswer
    exact listed_generate _ family
  | register | addMapping | setSourceRoot => cases hanswer

/-- Whatever a generator is asked for: a text that is registered is given an index, which is that of
the text in every map that is generated from then on, and two texts are given the same index exactly
if they are the same. A map lists the texts that have been registered by then, each once and in the
order of their first registration. All this holds of the sources by themselves and of the names by
themselves. At no time is there a text that the table of a family finds elsewhere than its list has
it. -/
theorem run_interns (file : String) (family : Family) (calls : List Call) :
    let fresh : Generator := { file }
    let answers := (fresh.run calls).2
    (∀ (i : Nat) text, calls[i]? = some (Call.register family text) →
      ∃ index, answers[i]? = some (Answer.index index) ∧
        ∀ (j : Nat) map, i < j → answers[j]? = some (Answer.map map) →
          index < (family.listed map).length ∧ (family.listed map)[index]? = some text) ∧
    (∀ (i j : Nat) text other index place,
      calls[i]? = some (Call.register family text) → answers[i]? = some (Answer.index index) →
      calls[j]? = some (Call.register family other) → answers[j]? = some (Answer.index place) →
      (index = place ↔ text = other)) ∧
    (∀ (j : Nat) map, answers[j]? = some (Answer.map map) →
      ListsOnce (family.registered (calls.take j)) (family.listed map)) ∧
    ∀ j, (family.registry (fresh.run (calls.take j)).1).Agrees := by
  intro fresh answers
  have hagrees (j : Nat) : (family.registry (fresh.run (calls.take j)).1).Agrees :=
    (interns_run family file _).agrees
  refine ⟨?_, ?_, ?_, hagrees⟩
  · intro i text hcall
    obtain ⟨index, hindex, hstays⟩ := exists_index_of_register (hagrees i) hcall
    refine ⟨index, hindex, ?_⟩
    intro j map hlt hmap
    rw [listed_of_answer hmap]
    have hplace := hstays j hlt
    exact ⟨(List.getElem?_eq_some_iff.mp hplace).1, hplace⟩
  · intro i j text other index place hcall hindex hcall' hplace
    obtain ⟨_, hfirst, htext⟩ := exists_index_of_register (hagrees i) hcall
    obtain ⟨_, hsecond, hother⟩ := exists_index_of_register (hagrees j) hcall'
    obtain rfl := Answer.index.inj (Option.some.inj (hindex.symm.trans hfirst))
    obtain rfl := Answer.index.inj (Option.some.inj (hplace.symm.trans hsecond))
    -- both are looked up in the registry behind all calls
    have htext := htext calls.length (List.getElem?_eq_some_iff.mp hcall).1
    have hother := hother calls.length (List.getElem?_eq_some_iff.mp hcall').1
    constructor
    · rintro rfl
      exact Option.some.inj (htext.symm.trans hother)
    · rintro rfl
      have htable := (hagrees calls.length _ _).mpr htext
      exact Option.some.inj (htable.symm.trans ((hagrees calls.length _ _).mpr hother))
  · intro j map hmap
    rw [listed_of_answer hmap]
    exact (interns_run family file _).lists

/-- A path and a name with one text have indices of their own, and a path that comes again keeps its
index. -/
example :
    let calls : List Call := [.register .sources "b", .register .sources "a", .register .names "a",
      .addMapping ⟨⟨0, 0⟩, 1, ⟨0, 0⟩, some 0⟩, .register .sources "b", .generate]
    let fresh : Generator := { file := "out" }
    let state := (fresh.run calls).1
    (fresh.run calls).2.take 5 = [.index 0, .index 1, .index 0, .nothing, .index 0] ∧
      state.generate.sources = ["b", "a"] ∧ state.generate.names = ["a"] := by decide

end Generator

end Downlevel.SourceMap
