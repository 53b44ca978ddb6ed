import Downlevel.Assembly
import Downlevel.Proofs.Decoding

/-!
# Resolving positions of assembled code

A position of generated text is resolved by the last segment on its line that does not lie behind
it. Main statement: in the source map that is assembled with code, every character on the first
line of a fragment resolves to the origin of the fragment, and there are no segments but the starts
of fragments (`assemble_resolves`).

Leaving out a mapping that continues the last one kept is what makes this more than a round trip.
It does no harm because the fragments are added in order of their places: behind a fragment, the
last mapping kept has its origin and lies on its line, whether it was added for it or before it.

The places are in order only as long as the counters of lines and columns do not start again
(`Text.WordSized`). In general, the counters show the place behind a text with both numbers cut to
32 bits (`Text.advance_wrapped`).
-/

namespace Downlevel

/-! ## Places in a text -/

/-- What counters of 32 bits show of a position. -/
def Position.wrapped (p : Position) : Position := ⟨Text.counted p.line, Text.counted p.column⟩

theorem Position.WordSized.wrapped_eq {p : Position} (h : p.WordSized) : p.wrapped = p := by
  have hline : Text.counted p.line = p.line := Nat.mod_eq_of_lt h.line
  have hcolumn : Text.counted p.column = p.column := Nat.mod_eq_of_lt h.column
  rw [wrapped, hline, hcolumn]

namespace Text

/-- The place behind a text: as many lines down as it has line feeds, and as many columns in as
there are UTF-16 code units behind the last of them. -/
def placeAfter (text : List Char) : Position :=
  ⟨text.count '\n', ((text.reverse.takeWhile (· ≠ '\n')).map units16).sum⟩

/-- The place behind one more character. -/
def behind (p : Position) (c : Char) : Position :=
  if c = '\n' then ⟨p.line + 1, 0⟩ else ⟨p.line, p.column + units16 c⟩

theorem placeAfter_append_char (text : List Char) (c : Char) :
    placeAfter (text ++ [c]) = behind (placeAfter text) c := by
  by_cases hc : c = '\n'
  · simp [placeAfter, behind, hc]
  · simp [placeAfter, behind, hc, Nat.add_comm]

theorem foldl_behind_placeAfter (before text : List Char) :
    text.foldl behind (placeAfter before) = placeAfter (before ++ text) := by
  induction text generalizing before with
  | nil => simp
  | cons c rest ih =>
    rw [List.foldl_cons, ← placeAfter_append_char, ih, List.append_assoc]
    rfl

theorem units16_pos (c : Char) : 0 < units16 c := by
  unfold units16
  split <;> omega

theorem behind_ne {p : Position} {c : Char} (h : c ≠ '\n') :
    behind p c = ⟨p.line, p.column + units16 c⟩ := if_neg h

theorem le_behind (p : Position) (c : Char) : p ≤ behind p c := by
  unfold behind
  split <;> simp [Position.le_iff]

/-- Every character takes room. -/
theorem not_behind_le (p : Position) (c : Char) : ¬ behind p c ≤ p := by
  have hunits := units16_pos c
  unfold behind
  split <;> simp only [Position.le_iff] <;> omega

theorem le_foldl_behind (p : Position) (text : List Char) : p ≤ text.foldl behind p := by
  induction text generalizing p with
  | nil => simp
  | cons c rest ih => exact Std.le_trans (le_behind p c) (ih (behind p c))

theorem placeAfter_le (before text : List Char) :
    placeAfter before ≤ placeAfter (before ++ text) := by
  rw [← foldl_behind_placeAfter]
  exact le_foldl_behind _ _

/-- Without a line feed the place stays on its line. -/
theorem foldl_behind_line {p : Position} {text : List Char} (h : '\n' ∉ text) :
    (text.foldl behind p).line = p.line := by
  induction text generalizing p with
  | nil => rfl
  | cons c rest ih =>
    simp only [List.mem_cons, not_or] at h
    rw [List.foldl_cons, ih h.2, behind_ne (Ne.symm h.1)]

/-! ### What the counters show -/

theorem advanceChar_wrapped (p : Position) (c : Char) :
    advanceChar p.wrapped c = (behind p c).wrapped := by
  unfold advanceChar behind
  split <;> simp [Position.wrapped, counted]

/-- The counters show the place behind the text, but for what does not fit into 32 bits. -/
theorem advance_wrapped (before : List Char) (text : String) :
    advance (placeAfter before).wrapped text = (placeAfter (before ++ text.toList)).wrapped := by
  rw [advance]
  generalize text.toList = chars
  induction chars generalizing before with
  | nil => rw [List.foldl_nil, List.append_nil]
  | cons c rest ih =>
    rw [List.foldl_cons, advanceChar_wrapped, ← placeAfter_append_char, ih, List.append_assoc]
    rfl

/-- All places in the text fit into 32 bits. -/
def WordSized (text : List Char) : Prop :=
  ∀ before, before <+: text → (placeAfter before).WordSized

instance (text : List Char) : Decidable (WordSized text) :=
  decidable_of_iff (∀ before ∈ text.inits, (placeAfter before).WordSized)
    (forall_congr' fun _ => imp_congr_left (List.mem_inits _ _))

theorem WordSized.of_isPrefix {before text : List Char} (h : WordSized text)
    (hbefore : before <+: text) : WordSized before :=
  fun first hfirst => h first (hfirst.trans hbefore)

/-- As long as the places fit into 32 bits the counters show them. -/
theorem WordSized.advance (before : List Char) {text : String}
    (h : WordSized (before ++ text.toList)) :
    advance (placeAfter before) text = placeAfter (before ++ text.toList) := by
  have hstart := (h before (List.prefix_append _ _)).wrapped_eq
  have hstop := (h _ List.prefix_rfl).wrapped_eq
  rw [← hstop, ← advance_wrapped, hstart]

end Text

/-! ## Segments -/

namespace SourceMap

theorem getElem?_of_isPrefix {entries more : List String} {index : Nat} {entry : String}
    (h : entries <+: more) (hentry : entries[index]? = some entry) : more[index]? = some entry := by
  obtain ⟨later, rfl⟩ := h
  rw [List.getElem?_append_left (List.getElem?_eq_some_iff.mp hentry).1, hentry]

/-- The last segment on the line of `p` that does not lie behind `p`. -/
def resolve? (segments : List Mapping) (p : Position) : Option Mapping :=
  (segments.filter fun m => m.generated.line == p.line && m.generated.column ≤ p.column).getLast?

/-- Only segments behind `p` stand behind the one that `p` resolves to. -/
theorem resolve?_append {segments later : List Mapping} {m : Mapping} {p : Position}
    (hlast : segments.getLast? = some m) (hline : m.generated.line = p.line)
    (hcolumn : m.generated.column ≤ p.column) (hlater : ∀ n ∈ later, ¬ n.generated ≤ p) :
    resolve? (segments ++ later) p = some m := by
  have hnone : later.filter
      (fun m => m.generated.line == p.line && m.generated.column ≤ p.column) = [] := by
    rw [List.filter_eq_nil_iff]
    intro n hn hvisible
    simp only [Bool.and_eq_true, beq_iff_eq, decide_eq_true_eq] at hvisible
    exact hlater n hn (Or.inr hvisible)
  obtain ⟨earlier, rfl⟩ := List.getLast?_eq_some_iff.mp hlast
  rw [resolve?, List.filter_append, hnone, List.append_nil, List.filter_append]
  simp [hline, hcolumn]

namespace Generator

/-- A mapping is kept, or else the last one kept has the same origin on the same line. -/
theorem kept_addMapping (g : Generator) (m : Mapping) :
    (g.addMapping m).kept.toList = g.kept.toList ++ [m] ∨
      (g.addMapping m).kept.toList = g.kept.toList ∧
        ∃ last, g.kept.toList.getLast? = some last ∧ m.continues last = true := by
  unfold addMapping
  split
  · next h =>
    obtain ⟨last, hlast, hcontinues⟩ := (Option.any_eq_true _ _).mp h
    refine Or.inr ⟨rfl, last, ?_, hcontinues⟩
    rw [← Array.getLast?_toList] at hlast
    exact hlast
  · exact Or.inl (by simp)

@[simp] theorem sources_addMapping (g : Generator) (m : Mapping) :
    (g.addMapping m).sources = g.sources := by
  unfold addMapping
  split <;> rfl

end Generator

end SourceMap

/-! ## Assembly -/

namespace Fragment

open SourceMap (Generator Registry getElem?_of_isPrefix)

/-- The code of fragments, character by character. -/
def chars (fragments : List Fragment) : List Char := fragments.flatMap (·.text.toList)

theorem toList_code (fragments : List Fragment) : (code fragments).toList = chars fragments := by
  rw [code, String.toList_join, List.flatMap_map]
  rfl

/-- What a generator knows of the fragments that have been added: its mappings are in order, and
each of them is the start of one of the fragments. -/
structure Records (g : Generator) (added : List Fragment) : Prop where
  agrees : g.sources.Agrees
  sorted : g.kept.toList.Pairwise fun m n => m.notAfter n = true
  notAfter : ∀ m ∈ g.kept.toList, m.generated ≤ Text.placeAfter (chars added)
  start : ∀ m ∈ g.kept.toList, ∃ before position source text after,
    added = before ++ .mapped position source text :: after ∧
      m.generated = Text.placeAfter (chars before) ∧
      g.sources.entries[m.source]? = some source ∧ m.origin = position ∧ m.name = none

theorem chars_append (fragments more : List Fragment) :
    chars (fragments ++ more) = chars fragments ++ chars more := List.flatMap_append

theorem Records.empty (file : String) (sourceRoot : Option String) :
    Records { file, sourceRoot } [] where
  agrees := Registry.agrees_empty
  sorted := List.Pairwise.nil
  notAfter := by simp
  start := by simp

/-- Fragments and sources may be added without adding mappings. -/
theorem Records.extend {g g' : Generator} {added : List Fragment} (h : Records g added)
    (hkept : g'.kept = g.kept) (hagrees : g'.sources.Agrees)
    (hsources : g.sources.entries <+: g'.sources.entries) (f : Fragment) :
    Records g' (added ++ [f]) where
  agrees := hagrees
  sorted := hkept ▸ h.sorted
  notAfter := by
    intro m hm
    rw [hkept] at hm
    have hle := h.notAfter m hm
    have hmore := Text.placeAfter_le (chars added) (chars [f])
    rw [← chars_append] at hmore
    simp only [Position.le_iff] at hle hmore ⊢
    omega
  start := by
    intro m hm
    rw [hkept] at hm
    obtain ⟨before, position, source, text, after, rfl, hgenerated, hsource, horigin⟩ :=
      h.start m hm
    exact ⟨before, position, source, text, after ++ [f], by simp, hgenerated,
      getElem?_of_isPrefix hsources hsource, horigin⟩

/-- The mapping that a fragment asks for when it is added at `p`. -/
def mappingOf (g : Generator) (p origin : Position) (path : String) : Mapping :=
  { generated := p, source := (g.sources.add path).2, origin, name := none }

theorem addTo_mapped (g : Generator) (p origin : Position) (path text : String) :
    (mapped origin path text).addTo g p =
      (g.addSource path).1.addMapping (mappingOf g p origin path) := rfl

@[simp] theorem sources_addTo_mapped (g : Generator) (p origin : Position) (path text : String) :
    ((mapped origin path text).addTo g p).sources = (g.sources.add path).1 := by
  rw [addTo_mapped, Generator.sources_addMapping]
  rfl

/-- The mapping of a fragment is kept, or else the last one kept has its origin and its line. -/
theorem kept_addTo_mapped (g : Generator) (p origin : Position) (path text : String) :
    ((mapped origin path text).addTo g p).kept.toList =
        g.kept.toList ++ [mappingOf g p origin path] ∨
      ((mapped origin path text).addTo g p).kept.toList = g.kept.toList ∧
        ∃ last, g.kept.toList.getLast? = some last ∧
          (mappingOf g p origin path).continues last = true :=
  Generator.kept_addMapping (g.addSource path).1 (mappingOf g p origin path)

/-- Adding the next fragment. -/
theorem Records.addTo {g : Generator} {added : List Fragment} (h : Records g added)
    (f : Fragment) : Records (f.addTo g (Text.placeAfter (chars added))) (added ++ [f]) := by
  cases f with
  | plain text => exact h.extend rfl h.agrees List.prefix_rfl _
  | mapped origin path text =>
    have hextended : Records (g.addSource path).1 (added ++ [mapped origin path text]) :=
      h.extend (show (g.addSource path).1.kept = g.kept from rfl) (h.agrees.add path)
        (g.sources.entries_isPrefix_add path) _
    rcases kept_addTo_mapped g (Text.placeAfter (chars added)) origin path text with
      hkept | ⟨hkept, -⟩
    · refine ⟨?_, ?_, ?_, ?_⟩
      · rw [sources_addTo_mapped]
        exact h.agrees.add path
      · rw [hkept, List.pairwise_append]
        refine ⟨h.sorted, List.pairwise_singleton _ _, ?_⟩
        intro m hm n hn
        rw [List.mem_singleton.mp hn]
        exact decide_eq_true (h.notAfter m hm)
      · intro m hm
        rw [hkept, List.mem_append, List.mem_singleton] at hm
        rcases hm with hm | rfl
        · exact hextended.notAfter m hm
        · rw [chars_append]
          exact Text.placeAfter_le _ _
      · intro m hm
        rw [hkept, List.mem_append, List.mem_singleton] at hm
        rw [sources_addTo_mapped]
        rcases hm with hm | rfl
        · exact hextended.start m hm
        · exact ⟨added, origin, path, text, [], rfl, rfl, h.agrees.getElem?_add path, rfl, rfl⟩
    · refine ⟨?_, hkept ▸ h.sorted, hkept ▸ hextended.notAfter, ?_⟩
      · rw [sources_addTo_mapped]
        exact h.agrees.add path
      · rw [hkept, sources_addTo_mapped]
        exact hextended.start

theorem chars_isPrefix (before after : List Fragment) :
    chars before <+: chars (before ++ after) := by
  rw [chars_append]
  exact List.prefix_append _ _

/-- As long as the places fit into 32 bits, the next fragment begins where this one ends. -/
theorem advance_text {added : List Fragment} {f : Fragment}
    (h : Text.WordSized (chars (added ++ [f]))) :
    Text.advance (Text.placeAfter (chars added)) f.text =
      Text.placeAfter (chars (added ++ [f])) := by
  have hchars : chars (added ++ [f]) = chars added ++ f.text.toList := by
    rw [chars_append]
    simp [chars]
  rw [hchars] at h ⊢
  exact h.advance (chars added)

/-- Adding all fragments that are left. -/
theorem Records.addAllTo {g : Generator} {added : List Fragment} (h : Records g added)
    (fragments : List Fragment) (hwords : Text.WordSized (chars (added ++ fragments))) :
    Records (addAllTo g (Text.placeAfter (chars added)) fragments) (added ++ fragments) := by
  induction fragments generalizing g added with
  | nil => simpa [Fragment.addAllTo] using h
  | cons f rest ih =>
    rw [List.append_cons] at hwords ⊢
    rw [Fragment.addAllTo, advance_text (hwords.of_isPrefix (chars_isPrefix _ rest))]
    exact ih (h.addTo f) hwords

/-! ### What a fragment resolves to -/

/-- Behind a fragment, the last mapping kept is on its line and has its origin. -/
theorem Records.getLast?_addTo {g : Generator} {added : List Fragment} (h : Records g added)
    {p : Position} (hp : p = Text.placeAfter (chars added)) (origin : Position)
    (path text : String) :
    ∃ m, ((mapped origin path text).addTo g p).kept.toList.getLast? = some m ∧
      m.generated.line = p.line ∧ m.generated.column ≤ p.column ∧
      ((mapped origin path text).addTo g p).sources.entries[m.source]? = some path ∧
      m.origin = origin := by
  have hsource := h.agrees.getElem?_add path
  rw [sources_addTo_mapped]
  rcases kept_addTo_mapped g p origin path text with hkept | ⟨hkept, last, hlast, hcontinues⟩
  · exact ⟨_, by rw [hkept, List.getLast?_concat], rfl, le_rfl, hsource, rfl⟩
  · simp only [Mapping.continues, Bool.and_eq_true, beq_iff_eq] at hcontinues
    obtain ⟨⟨⟨hline, hindex⟩, horigin⟩, -⟩ := hcontinues
    have hle : last.generated ≤ p := hp ▸ h.notAfter last (List.mem_of_getLast? hlast)
    have hline : last.generated.line = p.line := hline
    rw [Position.le_iff] at hle
    refine ⟨last, by rw [hkept, hlast], hline, by omega, ?_, horigin⟩
    rw [hindex]
    exact hsource

/-- What a fragment adds stands at its place, behind what is there. -/
theorem kept_addTo (g : Generator) (p : Position) (f : Fragment) :
    ∃ later, (f.addTo g p).kept.toList = g.kept.toList ++ later ∧
      (∀ m ∈ later, p ≤ m.generated) ∧
      g.sources.entries <+: (f.addTo g p).sources.entries := by
  cases f with
  | plain text => exact ⟨[], by simp [addTo], by simp, List.prefix_rfl⟩
  | mapped origin path text =>
    have hsources : g.sources.entries <+:
        ((mapped origin path text).addTo g p).sources.entries := by
      rw [sources_addTo_mapped]
      exact g.sources.entries_isPrefix_add path
    rcases kept_addTo_mapped g p origin path text with hkept | ⟨hkept, -⟩
    · refine ⟨_, hkept, ?_, hsources⟩
      intro m hm
      rw [List.mem_singleton.mp hm]
      exact Or.inr ⟨rfl, le_rfl⟩
    · exact ⟨[], by rw [hkept, List.append_nil], by simp, hsources⟩

/-- What more fragments add stands at later places, behind what is there. -/
theorem kept_addAllTo (g : Generator) {added : List Fragment} (fragments : List Fragment)
    (hwords : Text.WordSized (chars (added ++ fragments))) :
    ∃ later, (addAllTo g (Text.placeAfter (chars added)) fragments).kept.toList =
        g.kept.toList ++ later ∧
      (∀ m ∈ later, Text.placeAfter (chars added) ≤ m.generated) ∧
      g.sources.entries <+:
        (addAllTo g (Text.placeAfter (chars added)) fragments).sources.entries := by
  induction fragments generalizing g added with
  | nil => exact ⟨[], by simp [addAllTo], by simp, List.prefix_rfl⟩
  | cons f rest ih =>
    rw [List.append_cons] at hwords
    obtain ⟨first, hfirst, hplace, hprefix⟩ := kept_addTo g (Text.placeAfter (chars added)) f
    obtain ⟨later, hlater, hplaces, hsources⟩ :=
      ih (f.addTo g (Text.placeAfter (chars added))) hwords
    have hnext := advance_text (hwords.of_isPrefix (chars_isPrefix _ rest))
    rw [addAllTo, hnext]
    refine ⟨first ++ later, ?_, ?_, hprefix.trans hsources⟩
    · rw [hlater, hfirst, List.append_assoc]
    · intro m hm
      rcases List.mem_append.mp hm with hm | hm
      · exact hplace m hm
      · rw [chars_append] at hplaces
        exact Std.le_trans (Text.placeAfter_le _ _) (hplaces m hm)

/-! ### The assembled source map -/

/-- All origins, and all places in the code, fit into 32 bits. -/
structure WordSized (fragments : List Fragment) : Prop where
  origin : ∀ origin path text, mapped origin path text ∈ fragments → origin.WordSized
  place : ∀ text, text <+: chars fragments → (Text.placeAfter text).WordSized

/-- The generator that has seen all fragments. -/
def collect (fragments : List Fragment) (file : String) (sourceRoot : Option String) : Generator :=
  addAllTo { file, sourceRoot } ⟨0, 0⟩ fragments

theorem addAllTo_append (g : Generator) (p : Position) (before after : List Fragment) :
    addAllTo g p (before ++ after) =
      addAllTo (addAllTo g p before) (Text.advance p (code before)) after := by
  induction before generalizing g p with
  | nil => rfl
  | cons f rest ih =>
    rw [List.cons_append, addAllTo, addAllTo, ih, code_cons, Text.advance_append]

theorem collect_append {before after : List Fragment} (file : String)
    (sourceRoot : Option String) (hwords : Text.WordSized (chars before)) :
    collect (before ++ after) file sourceRoot =
      addAllTo (collect before file sourceRoot) (Text.placeAfter (chars before)) after := by
  have hplace : Text.advance ⟨0, 0⟩ (code before) = Text.placeAfter (chars before) := by
    rw [← toList_code] at hwords ⊢
    exact Text.WordSized.advance [] hwords
  rw [collect, addAllTo_append, hplace, collect]

theorem records_collect {fragments : List Fragment} (file : String) (sourceRoot : Option String)
    (hwords : Text.WordSized (chars fragments)) :
    Records (collect fragments file sourceRoot) fragments :=
  (Records.empty file sourceRoot).addAllTo fragments hwords

theorem collect_wordSized {fragments : List Fragment} {file : String}
    {sourceRoot : Option String} (hwords : WordSized fragments)
    (hsources : (collect fragments file sourceRoot).sources.entries.length < 2 ^ 32) :
    ∀ m ∈ (collect fragments file sourceRoot).kept.toList, m.WordSized := by
  intro m hm
  obtain ⟨before, origin, path, text, after, rfl, hgenerated, hsource, horigin, hname⟩ :=
    (records_collect file sourceRoot hwords.place).start m hm
  have hindex := (List.getElem?_eq_some_iff.mp hsource).1
  exact
    { generated := hgenerated ▸ hwords.place _ (chars_isPrefix before _)
      source := hindex.trans hsources
      origin := horigin ▸ hwords.origin origin path text (by simp)
      name := by simp [hname] }

/-- The segments of the assembled map are the mappings that the generator has kept. -/
theorem decodeMappings?_assemble {fragments : List Fragment} {file : String}
    {sourceRoot : Option String} (hwords : WordSized fragments)
    (hsources : (collect fragments file sourceRoot).sources.entries.length < 2 ^ 32) :
    SourceMap.decodeMappings? (assemble fragments file sourceRoot).2.mappings =
      some (collect fragments file sourceRoot).kept.toList := by
  have hdecode := SourceMap.decodeMappings?_encodeMappings (collect_wordSized hwords hsources)
  rw [List.mergeSort_of_pairwise (records_collect file sourceRoot hwords.place).sorted] at hdecode
  exact hdecode

/-- A character on the first line of a fragment resolves to the fragment's origin. -/
theorem resolve?_collect {before after : List Fragment} {origin : Position}
    {path text : String} {read unread : List Char} {c : Char} (file : String)
    (sourceRoot : Option String) (htext : text.toList = read ++ c :: unread)
    (hread : '\n' ∉ read)
    (hwords : Text.WordSized (chars (before ++ mapped origin path text :: after))) :
    ∃ m, SourceMap.resolve?
        (collect (before ++ mapped origin path text :: after) file sourceRoot).kept.toList
        (Text.placeAfter (chars before ++ read)) = some m ∧
      (collect (before ++ mapped origin path text :: after) file
        sourceRoot).sources.entries[m.source]? = some path ∧
      m.origin = origin := by
  have hbefore : Text.WordSized (chars before) := hwords.of_isPrefix (chars_isPrefix _ _)
  rw [List.append_cons] at hwords
  have hstop := advance_text (hwords.of_isPrefix (chars_isPrefix _ after))
  rw [collect_append file sourceRoot hbefore, addAllTo, hstop]
  obtain ⟨m, hlast, hline, hcolumn, hsource, horigin⟩ :=
    (records_collect file sourceRoot hbefore).getLast?_addTo rfl origin path text
  obtain ⟨later, hkept, hlater, hsources⟩ := kept_addAllTo
    ((mapped origin path text).addTo (collect before file sourceRoot)
      (Text.placeAfter (chars before))) after hwords
  refine ⟨m, ?_, getElem?_of_isPrefix hsources hsource, horigin⟩
  -- the character lies on the line of the fragment's place, and all that comes later behind it
  have hsame : (Text.placeAfter (chars before ++ read)).line =
      (Text.placeAfter (chars before)).line := by
    rw [← Text.foldl_behind_placeAfter]
    exact Text.foldl_behind_line hread
  have hstart := Text.placeAfter_le (chars before) read
  have hbehind : Text.behind (Text.placeAfter (chars before ++ read)) c ≤
      Text.placeAfter (chars (before ++ [mapped origin path text])) := by
    have hchars : chars (before ++ [mapped origin path text]) =
        chars before ++ read ++ [c] ++ unread := by
      simp [chars, Fragment.text, htext]
    rw [hchars, ← Text.placeAfter_append_char]
    exact Text.placeAfter_le _ unread
  have hmoves := Text.not_behind_le (Text.placeAfter (chars before ++ read)) c
  simp only [Position.le_iff] at hstart
  refine hkept ▸ SourceMap.resolve?_append hlast (by omega) (by omega) ?_
  intro n hn hle
  exact hmoves (Std.le_trans hbehind (Std.le_trans (hlater n hn) hle))

/-- The code is the concatenation of the fragments' texts. In the map, every character up to the
first line feed of a fragment resolves to the origin of the fragment, and every segment is the
start of a fragment with that origin. -/
theorem assemble_resolves (fragments : List Fragment) (file : String)
    (sourceRoot : Option String) (hwords : WordSized fragments)
    (hsources : (assemble fragments file sourceRoot).2.sources.length < 2 ^ 32) :
    (assemble fragments file sourceRoot).1.toList = fragments.flatMap (·.text.toList) ∧
    ∃ segments, SourceMap.decodeMappings? (assemble fragments file sourceRoot).2.mappings =
        some segments ∧
      (∀ before origin path text after, fragments = before ++ mapped origin path text :: after →
        ∀ read c unread, text.toList = read ++ c :: unread → '\n' ∉ read →
          ∃ m, SourceMap.resolve? segments
              (Text.placeAfter ((code before).toList ++ read)) = some m ∧
            (assemble fragments file sourceRoot).2.sources[m.source]? = some path ∧
            m.origin = origin) ∧
      ∀ m ∈ segments, ∃ before origin path text after,
        fragments = before ++ mapped origin path text :: after ∧
          m.generated = Text.placeAfter (code before).toList ∧
          (assemble fragments file sourceRoot).2.sources[m.source]? = some path ∧
          m.origin = origin := by
  refine ⟨toList_code fragments, _, decodeMappings?_assemble hwords hsources, ?_, ?_⟩
  · rintro before origin path text after rfl read c unread htext hread
    rw [toList_code]
    exact resolve?_collect file sourceRoot htext hread hwords.place
  · intro m hm
    obtain ⟨before, origin, path, text, after, hfragments, hgenerated, hsource, horigin, -⟩ :=
      (records_collect file sourceRoot hwords.place).start m hm
    refine ⟨before, origin, path, text, after, hfragments, ?_, hsource, horigin⟩
    rw [toList_code, hgenerated]

/-- Two empty fragments share the place of the last one, and the first character takes two
columns. -/
theorem assemble_resolves_shared_place :
    WordSized [mapped ⟨3, 5⟩ "a" "😀", mapped ⟨3, 5⟩ "a" "", mapped ⟨7, 1⟩ "b" "",
        mapped ⟨3, 5⟩ "a" "xy"] ∧
      ∃ segments, SourceMap.decodeMappings? (assemble [mapped ⟨3, 5⟩ "a" "😀",
          mapped ⟨3, 5⟩ "a" "", mapped ⟨7, 1⟩ "b" "", mapped ⟨3, 5⟩ "a" "xy"] "out"
          none).2.mappings = some segments ∧
        ∃ m, SourceMap.resolve? segments ⟨0, 3⟩ = some m ∧ m.origin = ⟨3, 5⟩ := by
  have hwords : WordSized [mapped ⟨3, 5⟩ "a" "😀", mapped ⟨3, 5⟩ "a" "", mapped ⟨7, 1⟩ "b" "",
      mapped ⟨3, 5⟩ "a" "xy"] := by
    constructor
    · intro origin path text hmem
      simp only [List.mem_cons, mapped.injEq, List.not_mem_nil, or_false] at hmem
      rcases hmem with ⟨rfl, -⟩ | ⟨rfl, -⟩ | ⟨rfl, -⟩ | ⟨rfl, -⟩ <;>
        exact ⟨by decide, by decide⟩
    · show Text.WordSized (chars _)
      decide
  obtain ⟨-, segments, hsegments, hresolve, -⟩ :=
    assemble_resolves _ "out" none hwords (by decide)
  obtain ⟨m, hm, -, horigin⟩ := hresolve
    [mapped ⟨3, 5⟩ "a" "😀", mapped ⟨3, 5⟩ "a" "", mapped ⟨7, 1⟩ "b" ""] ⟨3, 5⟩ "a" "xy" [] rfl
    ['x'] 'y' [] rfl (by decide)
  exact ⟨hwords, segments, hsegments, m, hm, horigin⟩

end Fragment

end Downlevel
