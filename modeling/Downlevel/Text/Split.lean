/-!
# Splitting and joining

A text is cut at every occurrence of a separator character. There is always one part more than
there are separators, so the empty text has one empty part.
-/

namespace Downlevel.Text

/-- The parts of a text between the occurrences of `separator`. -/
def splitAt (separator : Char) : List Char → List (List Char)
  | [] => [[]]
  | c :: rest =>
    if c = separator then [] :: splitAt separator rest
    else match splitAt separator rest with
      | [] => [[c]]
      | part :: parts => (c :: part) :: parts

theorem splitAt_ne_nil (separator : Char) (text : List Char) : splitAt separator text ≠ [] := by
  cases text with
  | nil => simp [splitAt]
  | cons c rest =>
    rw [splitAt]
    split
    · simp
    · split <;> simp

theorem splitAt_separator (separator : Char) (text : List Char) :
    splitAt separator (separator :: text) = [] :: splitAt separator text := by
  simp [splitAt]

/-- A text without the separator is added to the first part. -/
theorem splitAt_append {separator : Char} {start text part : List Char}
    {parts : List (List Char)} (hstart : separator ∉ start)
    (h : splitAt separator text = part :: parts) :
    splitAt separator (start ++ text) = (start ++ part) :: parts := by
  induction start with
  | nil => exact h
  | cons c rest ih =>
    simp only [List.mem_cons, not_or] at hstart
    rw [List.cons_append, splitAt, if_neg (Ne.symm hstart.1), ih hstart.2]
    rfl

/-- Lists are cut in the same way as texts. -/
theorem splitAt_eq_splitOn (separator : Char) (text : List Char) :
    splitAt separator text = text.splitOn separator := by
  induction text with
  | nil => exact (List.splitOn_nil separator).symm
  | cons c rest ih =>
    obtain ⟨part, parts, hparts⟩ := List.exists_cons_of_ne_nil (splitAt_ne_nil separator rest)
    rw [splitAt, List.splitOn_cons_eq_if_modifyHead, ← ih, hparts]
    by_cases hc : c = separator
    · rw [if_pos hc, if_pos (beq_iff_eq.mpr hc)]
    · rw [if_neg hc, if_neg (mt beq_iff_eq.mp hc)]
      rfl

/-- The parts with `separator` between them. -/
def join (separator : String) : List String → String
  | [] => ""
  | [part] => part
  | part :: next :: parts => part ++ separator ++ join separator (next :: parts)

theorem toList_join (separator : String) (parts : List String) :
    (join separator parts).toList = separator.toList.intercalate (parts.map String.toList) := by
  induction parts with
  | nil => rfl
  | cons part rest ih =>
    cases rest with
    | nil => exact List.intercalate_singleton.symm
    | cons next rest =>
      rw [join, String.toList_append, String.toList_append, ih]
      exact List.intercalate_cons_cons.symm

/-- A carriage return directly before a line feed is dropped. -/
def unifyLineBreaks : List Char → List Char
  | '\r' :: '\n' :: rest => '\n' :: unifyLineBreaks rest
  | c :: rest => c :: unifyLineBreaks rest
  | [] => []

/-- The lines of a text, whose line breaks are a line feed or a carriage return and a line
feed. -/
def lines (text : String) : List String :=
  (splitAt '\n' (unifyLineBreaks text.toList)).map String.ofList

end Downlevel.Text
