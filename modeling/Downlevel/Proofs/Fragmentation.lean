import Downlevel.Proofs.Formatting
import Downlevel.Proofs.Resolution

/-!
# How plain text is cut into fragments

Assembly goes from fragment to fragment and carries a place along. A text between two mapped
fragments moves that place by its characters, one after the other, so it does not matter into how
many fragments the text is cut, nor where: between the two characters of a line break, or into
fragments without any text (`Text.advance_append`). What fragments are up to such cuts are the
mapped ones and the *gaps*, which are the texts before, between and behind them.

Main statement: fragments with the same mapped ones and the same gaps are assembled to the same code
and source map, and behind every first few fragments the place is the one that their code leads to,
exactly so as long as it fits into the 32 bits of the counters (`Fragment.assemble_uncut`).
-/

namespace Downlevel

namespace Fragment

/-- The plain texts before, between and behind the mapped fragments. -/
def gaps (fragments : List Fragment) : List String := (fragments.splitOnP isMapped).map code

/-- The fragments are the same but for how the text of their gaps is cut. -/
structure AgreeUpToCuts (fragments others : List Fragment) : Prop where
  mapped : fragments.filter isMapped = others.filter isMapped
  gaps : gaps fragments = gaps others

/-! ## What is carried from fragment to fragment -/

/-- Where assembly is: the code and the mappings so far, and the place at which the next fragment
begins. -/
structure Progress where
  code : String
  generator : SourceMap.Generator
  place : Position

namespace Progress

/-- Before the first fragment. -/
def start (file : String) (sourceRoot : Option String) : Progress :=
  ⟨"", { file, sourceRoot }, ⟨0, 0⟩⟩

/-- One more fragment. -/
def add (s : Progress) (f : Fragment) : Progress :=
  ⟨s.code ++ f.text, f.addTo s.generator s.place, Text.advance s.place f.text⟩

/-- More fragments. -/
def addAll (s : Progress) (fragments : List Fragment) : Progress := fragments.foldl add s

variable (s : Progress) (f : Fragment) (fragments more : List Fragment)

@[simp] theorem addAll_cons : s.addAll (f :: fragments) = (s.add f).addAll fragments := rfl

theorem addAll_append : s.addAll (fragments ++ more) = (s.addAll fragments).addAll more :=
  List.foldl_append

theorem code_addAll : (s.addAll fragments).code = s.code ++ Fragment.code fragments := by
  induction fragments generalizing s with
  | nil => exact String.append_empty.symm
  | cons f rest ih => rw [addAll_cons, ih, code_cons, add, String.append_assoc]

theorem generator_addAll : (s.addAll fragments).generator =
    addAllTo s.generator s.place fragments := by
  induction fragments generalizing s with
  | nil => rfl
  | cons f rest ih =>
    rw [addAll_cons, ih]
    rfl

theorem place_addAll : (s.addAll fragments).place =
    Text.advance s.place (Fragment.code fragments) := by
  induction fragments generalizing s with
  | nil => rfl
  | cons f rest ih =>
    rw [addAll_cons, ih, code_cons, Text.advance_append]
    rfl

end Progress

theorem assemble_eq_addAll (fragments : List Fragment) (file : String)
    (sourceRoot : Option String) :
    assemble fragments file sourceRoot =
      (((Progress.start file sourceRoot).addAll fragments).code,
        ((Progress.start file sourceRoot).addAll fragments).generator.generate) := by
  rw [Progress.code_addAll, Progress.generator_addAll, Progress.start, String.empty_append,
    assemble]

/-! ## Gaps in one piece -/

/-- Mapped fragments with a gap before each of them and the last gap behind them. -/
def interleave : (gaps : List String) → (fragments : List Fragment) → List Fragment
  | [], _ => []
  | gap :: gaps, [] => plain gap :: interleave gaps []
  | gap :: gaps, f :: rest => plain gap :: f :: interleave gaps rest

/-- The fragments with each gap as one fragment. -/
def uncut (fragments : List Fragment) : List Fragment :=
  interleave (gaps fragments) (fragments.filter isMapped)

theorem exists_gaps_eq_cons (fragments : List Fragment) :
    ∃ gap more, gaps fragments = gap :: more := by
  obtain ⟨first, rest, h⟩ := List.exists_cons_of_ne_nil (List.splitOnP_ne_nil isMapped fragments)
  exact ⟨code first, rest.map code, by rw [gaps, h, List.map_cons]⟩

theorem gaps_cons_mapped {f : Fragment} (h : f.isMapped = true) (rest : List Fragment) :
    gaps (f :: rest) = "" :: gaps rest := by
  rw [gaps, List.splitOnP_cons_eq_if_modifyHead, if_pos h, List.map_cons]
  rfl

theorem gaps_cons_plain {text gap : String} {rest : List Fragment} {more : List String}
    (h : gaps rest = gap :: more) : gaps (plain text :: rest) = (text ++ gap) :: more := by
  obtain ⟨first, others, hsplit⟩ :=
    List.exists_cons_of_ne_nil (List.splitOnP_ne_nil isMapped rest)
  rw [gaps, hsplit, List.map_cons, List.cons.injEq] at h
  obtain ⟨rfl, rfl⟩ := h
  rw [gaps, List.splitOnP_cons_eq_if_modifyHead, if_neg (by simp [isMapped]), hsplit,
    List.modifyHead_cons, List.map_cons, code_cons]
  rfl

/-- The first gap is one fragment, whatever is mapped behind it. -/
theorem exists_interleave_eq_cons (more : List String) (fragments : List Fragment) :
    ∃ others, ∀ gap, interleave (gap :: more) fragments = plain gap :: others := by
  cases fragments with
  | nil => exact ⟨interleave more [], fun _ => rfl⟩
  | cons f rest => exact ⟨f :: interleave more rest, fun _ => rfl⟩

namespace Progress

theorem add_empty (s : Progress) : s.add (plain "") = s := by
  rw [add, text, String.append_empty]
  rfl

theorem add_plain_append (s : Progress) (first second : String) :
    s.add (plain (first ++ second)) = (s.add (plain first)).add (plain second) := by
  simp only [add, text, Text.advance_append, String.append_assoc]
  rfl

/-- A gap may be added as it is cut or in one piece. -/
theorem addAll_uncut (s : Progress) (fragments : List Fragment) :
    s.addAll (uncut fragments) = s.addAll fragments := by
  induction fragments generalizing s with
  | nil => exact add_empty s
  | cons f rest ih =>
    obtain ⟨gap, more, hgaps⟩ := exists_gaps_eq_cons rest
    cases f with
    | mapped origin path text =>
      rw [uncut, gaps_cons_mapped rfl, List.filter_cons_of_pos rfl, interleave, addAll_cons,
        add_empty, addAll_cons, addAll_cons, ← ih, uncut]
    | plain text =>
      obtain ⟨others, hothers⟩ := exists_interleave_eq_cons more (rest.filter isMapped)
      rw [uncut, gaps_cons_plain hgaps, List.filter_cons_of_neg Bool.false_ne_true, hothers,
        addAll_cons, add_plain_append, addAll_cons, ← ih, uncut, hgaps, hothers, addAll_cons]

end Progress

theorem AgreeUpToCuts.uncut_eq {fragments others : List Fragment}
    (h : AgreeUpToCuts fragments others) : uncut fragments = uncut others := by
  rw [uncut, uncut, h.mapped, h.gaps]

/-- It does not matter how the text between mapped fragments is cut: fragments that are the same but
for that have the same code and the same source map. Assembly goes from fragment to fragment; behind
every first few of them it has their code, and the place is the one behind that code: as many lines
down as it has line feeds, and as many columns in as there are UTF-16 code units behind the last of
them. It is exactly this place as long as all places in the code fit into 32 bits; else both numbers
are cut to 32 bits. -/
theorem assemble_uncut (fragments : List Fragment) (file : String) (sourceRoot : Option String) :
    let start := Progress.start file sourceRoot
    (∀ others, AgreeUpToCuts fragments others →
      assemble others file sourceRoot = assemble fragments file sourceRoot) ∧
    assemble fragments file sourceRoot =
      ((start.addAll fragments).code, (start.addAll fragments).generator.generate) ∧
    ∀ before after, fragments = before ++ after →
      start.addAll fragments = (start.addAll before).addAll after ∧
      (start.addAll before).code = code before ∧
      (start.addAll before).place = (Text.placeAfter (code before).toList).wrapped ∧
      (Text.WordSized (code before).toList →
        (start.addAll before).place = Text.placeAfter (code before).toList) := by
  intro start
  refine ⟨?_, assemble_eq_addAll fragments file sourceRoot, ?_⟩
  · intro others h
    rw [assemble_eq_addAll, assemble_eq_addAll, ← Progress.addAll_uncut _ others,
      ← h.uncut_eq, Progress.addAll_uncut]
  · rintro before after rfl
    have hcode : (start.addAll before).code = code before := by
      rw [Progress.code_addAll]
      exact String.empty_append
    have hplace : (start.addAll before).place =
        (Text.placeAfter (code before).toList).wrapped := by
      rw [Progress.place_addAll]
      exact Text.advance_wrapped [] (code before)
    refine ⟨start.addAll_append before after, hcode, hplace, ?_⟩
    intro hwords
    rw [hplace, (hwords _ List.prefix_rfl).wrapped_eq]

/-- A line break that is cut in the middle, with empty fragments around it. -/
theorem assemble_uncut_line_break :
    let x := mapped ⟨2, 4⟩ "a" "x"
    let cut := [plain "😀\r", plain "", plain "\n", x, plain ""]
    AgreeUpToCuts [plain "😀\r\n", x] cut ∧
      assemble cut "out" none = assemble [plain "😀\r\n", x] "out" none ∧
      Text.WordSized (code (cut.take 1)).toList ∧
      ((Progress.start "out" none).addAll (cut.take 1)).place = ⟨0, 3⟩ ∧
      Text.WordSized (code (cut.take 3)).toList ∧
      ((Progress.start "out" none).addAll (cut.take 3)).place = ⟨1, 0⟩ := by
  intro x cut
  have hagree : AgreeUpToCuts [plain "😀\r\n", x] cut := ⟨by decide, by decide⟩
  have hcarriage : Text.WordSized (code (cut.take 1)).toList := by decide
  have hbreak : Text.WordSized (code (cut.take 3)).toList := by decide
  obtain ⟨hsame, -, -⟩ := assemble_uncut [plain "😀\r\n", x] "out" none
  obtain ⟨-, -, hplaces⟩ := assemble_uncut cut "out" none
  obtain ⟨-, -, -, hfirst⟩ := hplaces (cut.take 1) (cut.drop 1) rfl
  obtain ⟨-, -, -, hsecond⟩ := hplaces (cut.take 3) (cut.drop 3) rfl
  exact ⟨hagree, hsame cut hagree, hcarriage, (hfirst hcarriage).trans (by decide), hbreak,
    (hsecond hbreak).trans (by decide)⟩

end Fragment

end Downlevel
