import Downlevel.Proofs.Quantity
import Downlevel.SourceMap.Basic
import Downlevel.Text.Split

/-!
# Decoding the text of mappings

The standard reading of the `mappings` of a source map, written down without regard to how they are
written: lines are divided by semicolons and the segments of a line by commas, a segment is four or
five quantities, and each of them is added to a running total. The total of generated columns
starts anew on every line; the other totals are carried over.

Main statement: what is read back is the mappings in the order of their generated positions
(`decodeMappings?_encodeMappings`). It is a simulation: the totals of the reader are the cursor of
the writer, one segment after the other and one line after the other.
-/

namespace Downlevel

/-- Line and column fit into 32 bits. -/
structure Position.WordSized (p : Position) : Prop where
  line : p.line < 2 ^ 32
  column : p.column < 2 ^ 32

/-- All numbers of the mapping fit into 32 bits. -/
structure Mapping.WordSized (m : Mapping) : Prop where
  generated : m.generated.WordSized
  source : m.source < 2 ^ 32
  origin : m.origin.WordSized
  name : ∀ name ∈ m.name, name < 2 ^ 32

instance (p : Position) : Decidable p.WordSized :=
  decidable_of_iff (p.line < 2 ^ 32 ∧ p.column < 2 ^ 32)
    ⟨fun h => ⟨h.1, h.2⟩, fun h => ⟨h.line, h.column⟩⟩

instance (m : Mapping) : Decidable m.WordSized :=
  decidable_of_iff (m.generated.WordSized ∧ m.source < 2 ^ 32 ∧ m.origin.WordSized ∧
      ∀ name ∈ m.name, name < 2 ^ 32)
    ⟨fun h => ⟨h.1, h.2.1, h.2.2.1, h.2.2.2⟩, fun h => ⟨h.generated, h.source, h.origin, h.name⟩⟩

namespace SourceMap

/-! ## The reader -/

/-- The quantities that a text consists of. -/
def fields? (text : List Char) : Option (List Int) :=
  match text with
  | [] => some []
  | c :: rest =>
    match _h : Vlq.decode? (c :: rest) with
    | none => none
    | some (v, count) => (fields? ((c :: rest).drop count)).map (v :: ·)
termination_by text.length
decreasing_by
  have := Vlq.pos_of_decode? _h
  simp only [List.length_drop, List.length_cons]
  omega

/-- The sums of the quantities read so far. -/
structure Totals where
  column : Nat := 0
  source : Nat := 0
  origin : Position := ⟨0, 0⟩
  name : Nat := 0

/-- A total with one more quantity added. There are no negative totals. -/
def total? (old : Nat) (difference : Int) : Option Nat := (old + difference).toNat?

/-- The mapping of a segment on some line of generated text. -/
def readSegment? (line : Nat) (totals : Totals) : List Int → Option (Mapping × Totals)
  | column :: source :: originLine :: originColumn :: name => do
    let column ← total? totals.column column
    let source ← total? totals.source source
    let originLine ← total? totals.origin.line originLine
    let originColumn ← total? totals.origin.column originColumn
    let generated : Position := ⟨line, column⟩
    let origin : Position := ⟨originLine, originColumn⟩
    match name with
    | [] => some ({ generated, source, origin, name := none },
        { column, source, origin, name := totals.name })
    | [name] => do
      let name ← total? totals.name name
      some ({ generated, source, origin, name := some name }, { column, source, origin, name })
    | _ => none
  | _ => none

/-- The mappings of the segments of a line. -/
def readSegments? (line : Nat) (totals : Totals) :
    List (List Char) → Option (List Mapping × Totals)
  | [] => some ([], totals)
  | text :: rest => do
    let fields ← fields? text
    let (m, totals) ← readSegment? line totals fields
    let (later, totals) ← readSegments? line totals rest
    some (m :: later, totals)

/-- The segments of a line; an empty line has none. -/
def segments (text : List Char) : List (List Char) :=
  if text.isEmpty then [] else Text.splitAt ',' text

/-- The mappings of consecutive lines. -/
def readLines? (line : Nat) (totals : Totals) : List (List Char) → Option (List Mapping)
  | [] => some []
  | text :: rest => do
    let (here, totals) ← readSegments? line { totals with column := 0 } (segments text)
    let later ← readLines? (line + 1) totals rest
    some (here ++ later)

/-- The mappings that a text of mappings stands for. -/
def decodeMappings? (text : String) : Option (List Mapping) :=
  readLines? 0 {} (Text.splitAt ';' text.toList)

/-! ## Segments -/

theorem fields?_encode_append {v : Int} (h : v.natAbs < 2 ^ 62) (rest : List Char) :
    fields? (Vlq.encode v ++ rest) = (fields? rest).map (v :: ·) := by
  obtain ⟨c, digits, hdigits⟩ := List.exists_cons_of_ne_nil (Vlq.encode_ne_nil v)
  have hread := Vlq.decode?_encode_append h rest
  have hdrop : (Vlq.encode v ++ rest).drop (Vlq.encode v).length = rest := List.drop_left
  rw [hdigits, List.cons_append] at hread hdrop ⊢
  rw [fields?]
  split
  · next hnone => simp [hread] at hnone
  · next v' count hsome =>
    rw [hread] at hsome
    cases hsome
    rw [hdrop]

theorem total?_difference (new old : Nat) : total? old ((new : Int) - (old : Int)) = some new := by
  have hsum : (old : Int) + ((new : Int) - (old : Int)) = new := by omega
  rw [total?, hsum]
  rfl

theorem natAbs_difference_lt {new old : Nat} (hnew : new < 2 ^ 32) (hold : old < 2 ^ 32) :
    ((new : Int) - (old : Int)).natAbs < 2 ^ 62 := by omega

namespace Cursor

/-- The totals of a reader that has read what the writer has written. -/
def totals (cursor : Cursor) : Totals :=
  ⟨cursor.generated.column, cursor.source, cursor.origin, cursor.name⟩

/-- All numbers of the cursor fit into 32 bits. -/
structure WordSized (cursor : Cursor) : Prop where
  column : cursor.generated.column < 2 ^ 32
  source : cursor.source < 2 ^ 32
  origin : cursor.origin.WordSized
  name : cursor.name < 2 ^ 32

theorem WordSized.after {cursor : Cursor} {m : Mapping} (hcursor : cursor.WordSized)
    (hm : m.WordSized) : (cursor.after m).WordSized where
  column := hm.generated.column
  source := hm.source
  origin := hm.origin
  name := by
    cases hname : m.name with
    | none => simpa [Cursor.after, hname] using hcursor.name
    | some name => simpa [Cursor.after, hname] using hm.name name hname

theorem WordSized.startLine {cursor : Cursor} (hcursor : cursor.WordSized) (line : Nat) :
    (cursor.startLine line).WordSized := by
  unfold Cursor.startLine
  split
  · exact ⟨by norm_num, hcursor.source, hcursor.origin, hcursor.name⟩
  · exact hcursor

theorem mem_alphabet_of_mem_segment {cursor : Cursor} {m : Mapping} {c : Char}
    (h : c ∈ cursor.segment m) : c ∈ Vlq.alphabet := by
  simp only [segment, List.mem_append] at h
  rcases h with (((h | h) | h) | h) | h
  · exact Vlq.mem_alphabet_of_mem_encode h
  · exact Vlq.mem_alphabet_of_mem_encode h
  · exact Vlq.mem_alphabet_of_mem_encode h
  · exact Vlq.mem_alphabet_of_mem_encode h
  · cases hname : m.name with
    | none => simp [hname] at h
    | some name =>
      rw [hname] at h
      exact Vlq.mem_alphabet_of_mem_encode h

theorem segment_ne_nil (cursor : Cursor) (m : Mapping) : cursor.segment m ≠ [] := by
  simp [segment, difference, Vlq.encode_ne_nil]

end Cursor

namespace Cursor

/-- The quantities of the segment for `m`. -/
def differences (cursor : Cursor) (m : Mapping) : List Int :=
  [(m.generated.column : Int) - cursor.generated.column, (m.source : Int) - cursor.source,
    (m.origin.line : Int) - cursor.origin.line, (m.origin.column : Int) - cursor.origin.column] ++
    (m.name.map fun name => (name : Int) - cursor.name).toList

end Cursor

theorem fields?_segment {cursor : Cursor} {m : Mapping} (hcursor : cursor.WordSized)
    (hm : m.WordSized) : fields? (cursor.segment m) = some (cursor.differences m) := by
  simp only [Cursor.segment, Cursor.difference, List.append_assoc]
  rw [fields?_encode_append (natAbs_difference_lt hm.generated.column hcursor.column),
    fields?_encode_append (natAbs_difference_lt hm.source hcursor.source),
    fields?_encode_append (natAbs_difference_lt hm.origin.line hcursor.origin.line),
    fields?_encode_append (natAbs_difference_lt hm.origin.column hcursor.origin.column)]
  cases hname : m.name with
  | none => simp [fields?, Cursor.differences, hname]
  | some name =>
    have hlast := fields?_encode_append (natAbs_difference_lt (hm.name name hname) hcursor.name) []
    rw [List.append_nil] at hlast
    simp [hlast, fields?, Cursor.differences, hname]

theorem readSegment?_differences (cursor : Cursor) (m : Mapping) :
    readSegment? m.generated.line cursor.totals (cursor.differences m) =
      some (m, (cursor.after m).totals) := by
  obtain ⟨generated, source, origin, name⟩ := m
  cases name <;>
    simp [Cursor.differences, readSegment?, Cursor.totals, Cursor.after, total?_difference]

/-- A segment is read as the mapping that it was written for. -/
theorem readSegments?_segment {cursor : Cursor} {m : Mapping} (hcursor : cursor.WordSized)
    (hm : m.WordSized) (rest : List (List Char)) :
    readSegments? m.generated.line cursor.totals (cursor.segment m :: rest) =
      (readSegments? m.generated.line (cursor.after m).totals rest).map
        fun (later, totals) => (m :: later, totals) := by
  rw [readSegments?, fields?_segment hcursor hm]
  simp only [Option.bind_eq_bind, Option.bind_some, readSegment?_differences]
  cases readSegments? m.generated.line (cursor.after m).totals rest <;> rfl

/-! ## Lines -/

namespace Cursor

theorem startLine_of_le {cursor : Cursor} (line : Nat) (h : line ≤ cursor.generated.line) :
    cursor.startLine line = cursor := by
  rw [startLine, if_neg (by omega)]

theorem startLine_of_lt {cursor : Cursor} (line : Nat) (h : cursor.generated.line < line) :
    cursor.startLine line = { cursor with generated := ⟨line, 0⟩, lineStarted := false } := by
  rw [startLine, if_pos h]

end Cursor

/-- A later line is reached one semicolon after the other. -/
theorem encodeSorted_of_lt {cursor : Cursor} {m : Mapping} (rest : List Mapping)
    (h : cursor.generated.line < m.generated.line) :
    encodeSorted cursor (m :: rest) =
      ';' :: encodeSorted (cursor.startLine (cursor.generated.line + 1)) (m :: rest) := by
  have hline : (cursor.startLine (cursor.generated.line + 1)).generated.line =
      cursor.generated.line + 1 := by
    rw [Cursor.startLine_of_lt _ (by omega)]
  have hstart : (cursor.startLine (cursor.generated.line + 1)).startLine m.generated.line =
      cursor.startLine m.generated.line := by
    by_cases hnext : cursor.generated.line + 1 = m.generated.line
    · rw [Cursor.startLine_of_le _ (by omega), hnext]
    · rw [Cursor.startLine_of_lt m.generated.line (by omega),
        Cursor.startLine_of_lt m.generated.line h,
        Cursor.startLine_of_lt (cursor.generated.line + 1) (by omega)]
  have hcount : m.generated.line - cursor.generated.line =
      m.generated.line - (cursor.generated.line + 1) + 1 := by omega
  rw [encodeSorted, encodeSorted, hstart, hline, hcount, List.replicate_succ]
  rfl

theorem encodeSorted_of_eq {cursor : Cursor} {m : Mapping} (rest : List Mapping)
    (h : m.generated.line = cursor.generated.line) :
    encodeSorted cursor (m :: rest) =
      (if cursor.lineStarted then [','] else []) ++ cursor.segment m ++
        encodeSorted (cursor.after m) rest := by
  rw [encodeSorted, Cursor.startLine_of_le _ (by omega), h, Nat.sub_self]
  rfl

/-- The segments in the rest of a line, in front of which there is a comma if the line has been
started. -/
def laterSegments? (lineStarted : Bool) (text : List Char) : Option (List (List Char)) :=
  if lineStarted then
    match Text.splitAt ',' text with
    | [] :: rest => some rest
    | _ => none
  else some (segments text)

/-- The mappings behind a cursor, whose line goes on with the first text. -/
def readRest? (cursor : Cursor) : List (List Char) → Option (List Mapping)
  | [] => none
  | text :: rest => do
    let texts ← laterSegments? cursor.lineStarted text
    let (here, totals) ← readSegments? cursor.generated.line cursor.totals texts
    let later ← readLines? (cursor.generated.line + 1) totals rest
    some (here ++ later)

theorem laterSegments?_nil (lineStarted : Bool) : laterSegments? lineStarted [] = some [] := by
  cases lineStarted <;> rfl

theorem splitAt_comma_of_laterSegments? {text : List Char} {texts : List (List Char)}
    (h : laterSegments? true text = some texts) : Text.splitAt ',' text = [] :: texts := by
  simp only [laterSegments?, if_true] at h
  split at h
  · next rest hsplit =>
    cases h
    exact hsplit
  · cases h

theorem comma_not_mem_segment (cursor : Cursor) (m : Mapping) : ',' ∉ cursor.segment m :=
  fun h => absurd (Cursor.mem_alphabet_of_mem_segment h) (by decide)

theorem semicolon_not_mem_segment (cursor : Cursor) (m : Mapping) : ';' ∉ cursor.segment m :=
  fun h => absurd (Cursor.mem_alphabet_of_mem_segment h) (by decide)

/-- The segment that is written next is the next one in the rest of the line. -/
theorem laterSegments?_segment {cursor : Cursor} {m : Mapping} {text : List Char}
    {texts : List (List Char)} (h : laterSegments? true text = some texts) :
    laterSegments? cursor.lineStarted
      ((if cursor.lineStarted then [','] else []) ++ cursor.segment m ++ text) =
      some (cursor.segment m :: texts) := by
  have hsplit := Text.splitAt_append (comma_not_mem_segment cursor m)
    (splitAt_comma_of_laterSegments? h)
  rw [List.append_nil] at hsplit
  cases cursor.lineStarted with
  | true =>
    simp [laterSegments?, Text.splitAt_separator, hsplit]
  | false =>
    simp [laterSegments?, segments, hsplit, Cursor.segment_ne_nil]

/-- Reading a semicolon is starting the next line. -/
theorem readRest?_semicolon (cursor : Cursor) (text : List Char) :
    readRest? cursor (Text.splitAt ';' (';' :: text)) =
      readRest? (cursor.startLine (cursor.generated.line + 1)) (Text.splitAt ';' text) := by
  obtain ⟨part, parts, hsplit⟩ :=
    List.exists_cons_of_ne_nil (Text.splitAt_ne_nil ';' text)
  rw [Text.splitAt_separator, hsplit, Cursor.startLine_of_lt _ (by omega)]
  simp only [readRest?, laterSegments?_nil, Option.bind_eq_bind, Option.bind_some, readSegments?]
  simp [readLines?, laterSegments?, Cursor.totals]

theorem readRest?_segment {cursor : Cursor} {m : Mapping} {text : List Char} {ms : List Mapping}
    (hcursor : cursor.WordSized) (hm : m.WordSized)
    (hline : m.generated.line = cursor.generated.line)
    (h : readRest? (cursor.after m) (Text.splitAt ';' text) = some ms) :
    readRest? cursor (Text.splitAt ';'
      ((if cursor.lineStarted then [','] else []) ++ cursor.segment m ++ text)) =
      some (m :: ms) := by
  obtain ⟨part, parts, hsplit⟩ :=
    List.exists_cons_of_ne_nil (Text.splitAt_ne_nil ';' text)
  have hfree : ';' ∉ (if cursor.lineStarted then [','] else []) ++ cursor.segment m := by
    rw [List.mem_append, not_or]
    refine ⟨?_, semicolon_not_mem_segment cursor m⟩
    split <;> simp
  rw [hsplit] at h
  rw [Text.splitAt_append hfree hsplit]
  simp only [readRest?, Option.bind_eq_bind, Option.bind_eq_some_iff] at h ⊢
  obtain ⟨texts, htexts, ⟨here, totals⟩, hhere, later, hlater, hms⟩ := h
  cases hms
  refine ⟨_, laterSegments?_segment htexts, (m :: here, totals), ?_, later, hlater, rfl⟩
  have hafter : (cursor.after m).generated.line = m.generated.line := hline.symm
  rw [hafter] at hhere
  rw [← hline, readSegments?_segment hcursor hm, hhere]
  rfl

/-- The reader undoes the writer, from any cursor on. -/
theorem readRest?_encodeSorted {cursor : Cursor} {ms : List Mapping}
    (hcursor : cursor.WordSized) (hms : ∀ m ∈ ms, m.WordSized)
    (hfirst : ∀ m ∈ ms, cursor.generated.line ≤ m.generated.line)
    (hsorted : ms.Pairwise fun m n => m.generated.line ≤ n.generated.line) :
    readRest? cursor (Text.splitAt ';' (encodeSorted cursor ms)) = some ms := by
  induction ms generalizing cursor with
  | nil =>
    simp [encodeSorted, Text.splitAt, readRest?, laterSegments?_nil, readSegments?, readLines?]
  | cons m rest ih =>
    obtain ⟨hm, hrest⟩ := List.forall_mem_cons.mp hms
    obtain ⟨hlater, hsorted⟩ := List.pairwise_cons.mp hsorted
    -- the lines up to that of `m` are empty
    obtain ⟨count, hcount⟩ := Nat.exists_eq_add_of_le (hfirst m (List.mem_cons_self ..))
    clear hfirst
    induction count generalizing cursor with
    | zero =>
      rw [encodeSorted_of_eq rest (by omega)]
      apply readRest?_segment hcursor hm (by omega)
      apply ih (hcursor.after hm) hrest _ hsorted
      intro n hn
      have hle := hlater n hn
      show cursor.generated.line ≤ n.generated.line
      omega
    | succ count ihLine =>
      rw [encodeSorted_of_lt rest (by omega), readRest?_semicolon]
      apply ihLine (hcursor.startLine _)
      rw [Cursor.startLine_of_lt _ (by omega)]
      simp only
      omega

/-! ## Mappings in any order -/

theorem notAfter_trans (l m n : Mapping) :
    l.notAfter m = true → m.notAfter n = true → l.notAfter n = true := by
  simp only [Mapping.notAfter, decide_eq_true_eq, Position.le_iff]
  omega

theorem notAfter_total (m n : Mapping) : (m.notAfter n || n.notAfter m) = true := by
  simp only [Mapping.notAfter, Bool.or_eq_true, decide_eq_true_eq, Position.le_iff]
  omega

/-- The text of mappings is read as the mappings in order of their generated positions. -/
theorem decodeMappings?_encodeMappings {ms : List Mapping} (h : ∀ m ∈ ms, m.WordSized) :
    decodeMappings? (encodeMappings ms) = some (ms.mergeSort Mapping.notAfter) := by
  have hsorted : (ms.mergeSort Mapping.notAfter).Pairwise
      fun m n => m.generated.line ≤ n.generated.line := by
    refine (List.pairwise_mergeSort notAfter_trans notAfter_total ms).imp ?_
    intro m n hmn
    simp only [Mapping.notAfter, decide_eq_true_eq, Position.le_iff] at hmn
    omega
  have hstart : ({} : Cursor).WordSized :=
    ⟨by decide, by decide, ⟨by decide, by decide⟩, by decide⟩
  have hread := readRest?_encodeSorted hstart (fun m hm => h m (List.mem_mergeSort.mp hm))
    (fun m _ => Nat.zero_le _) hsorted
  rw [decodeMappings?, encodeMappings, String.toList_ofList, ← hread]
  obtain ⟨part, parts, hsplit⟩ := List.exists_cons_of_ne_nil
    (Text.splitAt_ne_nil ';' (encodeSorted {} (ms.mergeSort Mapping.notAfter)))
  rw [hsplit]
  rfl

end SourceMap

end Downlevel
