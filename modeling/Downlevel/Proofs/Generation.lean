import Downlevel.Proofs.Decoding

/-!
# The text that a generator writes

A generator may be given its mappings in any order, several of them at one generated position. What
it writes is read back as these mappings and nothing else, in the order of their generated positions
(`Generator.generate_decodes`). The text is as short as it can be: it stops on the line of the last
mapping, and wherever there is a comma, there is a segment on both sides of it.
-/

namespace Downlevel.SourceMap

/-! ## Stable order -/

/-- The second list has the mappings of the first in the order of their generated positions, and
those at one position in the order that they had. -/
structure StablyOrdered (ms sorted : List Mapping) : Prop where
  perm : sorted.Perm ms
  ordered : sorted.Pairwise (·.generated ≤ ·.generated)
  stable : ∀ p, sorted.filter (·.generated = p) = ms.filter (·.generated = p)

theorem stablyOrdered_mergeSort (ms : List Mapping) :
    StablyOrdered ms (ms.mergeSort Mapping.notAfter) where
  perm := List.mergeSort_perm ms _
  ordered := by
    refine (List.pairwise_mergeSort notAfter_trans notAfter_total ms).imp ?_
    intro m n hmn
    exact of_decide_eq_true hmn
  stable := by
    intro p
    -- mappings at one position are in order as they are, so that sorting leaves them so
    have hsame : (ms.filter (·.generated = p)).Pairwise fun m n => m.notAfter n = true := by
      refine List.pairwise_of_forall_mem_list ?_
      intro m hm n hn
      have hm : m.generated = p := of_decide_eq_true (List.mem_filter.mp hm).2
      have hn : n.generated = p := of_decide_eq_true (List.mem_filter.mp hn).2
      exact decide_eq_true (by simp [hm, hn])
    have hsublist := (List.sublist_mergeSort notAfter_trans notAfter_total hsame
      List.filter_sublist).filter (·.generated = p)
    rw [List.filter_filter] at hsublist
    simp only [Bool.and_self] at hsublist
    have hlength := ((List.mergeSort_perm ms Mapping.notAfter).filter (·.generated = p)).length_eq
    exact (hsublist.eq_of_length hlength.symm).symm

/-! ## Lines -/

theorem count_semicolon_segment (cursor : Cursor) (m : Mapping) :
    (cursor.segment m).count ';' = 0 :=
  List.count_eq_zero_of_not_mem (semicolon_not_mem_segment cursor m)

/-- Every semicolon is the start of a line, up to the line of the last mapping. -/
theorem count_semicolon_encodeSorted {cursor : Cursor} {ms : List Mapping}
    (hfirst : ∀ m ∈ ms, cursor.generated.line ≤ m.generated.line)
    (hsorted : ms.Pairwise fun m n => m.generated.line ≤ n.generated.line) :
    cursor.generated.line + (encodeSorted cursor ms).count ';' =
      (ms.map (·.generated.line)).foldl max cursor.generated.line := by
  induction ms generalizing cursor with
  | nil => rfl
  | cons m rest ih =>
    obtain ⟨hlater, hsorted⟩ := List.pairwise_cons.mp hsorted
    have hline := hfirst m List.mem_cons_self
    -- behind the segment of `m` the cursor is on the line of `m`
    have hafter : ((cursor.startLine m.generated.line).after m).generated.line =
        m.generated.line := by
      show (cursor.startLine m.generated.line).generated.line = m.generated.line
      rcases Nat.lt_or_eq_of_le hline with hlt | heq
      · rw [Cursor.startLine_of_lt _ hlt]
      · rw [Cursor.startLine_of_le _ heq.ge, heq]
    have hbehind : ∀ n ∈ rest,
        ((cursor.startLine m.generated.line).after m).generated.line ≤ n.generated.line := by
      intro n hn
      rw [hafter]
      exact hlater n hn
    have hrest := ih hbehind hsorted
    have hcomma :
        (if (cursor.startLine m.generated.line).lineStarted then [','] else []).count ';' = 0 := by
      split <;> rfl
    rw [hafter] at hrest
    rw [encodeSorted, List.map_cons, List.foldl_cons, Nat.max_eq_right hline, ← hrest]
    simp only [List.count_append, List.count_replicate_self, hcomma, count_semicolon_segment]
    omega

/-! ## Segments -/

/-- An empty text is no segment. -/
theorem nil_not_mem_of_readSegments? {line : Nat} {totals : Totals} {texts : List (List Char)}
    {result : List Mapping × Totals} (h : readSegments? line totals texts = some result) :
    [] ∉ texts := by
  induction texts generalizing totals result with
  | nil => exact List.not_mem_nil
  | cons text rest ih =>
    simp only [readSegments?, Option.bind_eq_bind, Option.bind_eq_some_iff] at h
    obtain ⟨fields, hfields, ⟨m, totals⟩, hm, ⟨later, totals⟩, hlater, -⟩ := h
    rw [List.mem_cons, not_or]
    refine ⟨?_, ih hlater⟩
    rintro rfl
    rw [fields?] at hfields
    cases hfields
    cases hm

theorem nil_not_mem_of_readLines? {line : Nat} {totals : Totals} {texts : List (List Char)}
    {ms : List Mapping} (h : readLines? line totals texts = some ms) :
    ∀ text ∈ texts, [] ∉ segments text := by
  induction texts generalizing line totals ms with
  | nil => simp
  | cons text rest ih =>
    simp only [readLines?, Option.bind_eq_bind, Option.bind_eq_some_iff] at h
    obtain ⟨⟨here, totals⟩, hhere, later, hlater, -⟩ := h
    rw [List.forall_mem_cons]
    exact ⟨nil_not_mem_of_readSegments? hhere, ih hlater⟩

/-! ## Generators -/

/-- Whatever mappings a generator has kept: its text is read back as these mappings in stable order,
has as many semicolons as the largest generated line says, and has no empty segments. -/
theorem Generator.generate_decodes (g : Generator) (h : ∀ m ∈ g.kept.toList, m.WordSized) :
    (∃ sorted, StablyOrdered g.kept.toList sorted ∧
      decodeMappings? g.generate.mappings = some sorted) ∧
    g.generate.mappings.toList.count ';' =
      ((g.kept.toList.map (·.generated.line)).max?).getD 0 ∧
    ∀ line ∈ Text.splitAt ';' g.generate.mappings.toList, [] ∉ segments line := by
  have hread : decodeMappings? g.generate.mappings =
      some (g.kept.toList.mergeSort Mapping.notAfter) := decodeMappings?_encodeMappings h
  have hstable := stablyOrdered_mergeSort g.kept.toList
  refine ⟨⟨_, hstable, hread⟩, ?_, nil_not_mem_of_readLines? hread⟩
  have hlines : (g.kept.toList.mergeSort Mapping.notAfter).Pairwise
      fun m n => m.generated.line ≤ n.generated.line := by
    refine hstable.ordered.imp ?_
    intro m n hmn
    rw [Position.le_iff] at hmn
    omega
  have htext : g.generate.mappings.toList =
      encodeSorted {} (g.kept.toList.mergeSort Mapping.notAfter) := String.toList_ofList
  have hcount : 0 + g.generate.mappings.toList.count ';' =
      ((g.kept.toList.mergeSort Mapping.notAfter).map (·.generated.line)).foldl max 0 := by
    have hstart : ∀ m ∈ g.kept.toList.mergeSort Mapping.notAfter,
        ({} : Cursor).generated.line ≤ m.generated.line := fun m _ => Nat.zero_le _
    rw [htext]
    exact count_semicolon_encodeSorted hstart hlines
  have hperm : ((g.kept.toList.mergeSort Mapping.notAfter).map (·.generated.line)).foldl max 0 =
      (g.kept.toList.map (·.generated.line)).foldl max 0 :=
    (hstable.perm.map (·.generated.line)).foldl_eq 0
  rw [← Nat.zero_add (List.count _ _), hcount, hperm, List.foldl_max, Nat.zero_max]

/-- Two mappings with names at one position, behind a gap of a line, added before one that is above
them. -/
theorem Generator.generate_decodes_added_backwards :
    let g : Generator := { file := "out", kept := #[⟨⟨2, 4⟩, 0, ⟨0, 6⟩, some 1⟩,
      ⟨⟨2, 4⟩, 1, ⟨9, 0⟩, some 0⟩, ⟨⟨0, 3⟩, 0, ⟨5, 2⟩, none⟩] }
    (∀ m ∈ g.kept.toList, m.WordSized) ∧
      (∃ sorted, StablyOrdered g.kept.toList sorted ∧
        decodeMappings? g.generate.mappings = some sorted) ∧
      g.generate.mappings.toList.count ';' = 2 := by
  intro g
  have hwords : ∀ m ∈ g.kept.toList, m.WordSized := by decide
  obtain ⟨hread, hcount, -⟩ := g.generate_decodes hwords
  exact ⟨hwords, hread, hcount⟩

end Downlevel.SourceMap
