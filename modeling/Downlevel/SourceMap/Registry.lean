/-!
# Registries

A text that is needed more than once is registered and from then on called by its index. A registry
keeps the registered texts in a list, which gives the text of an index, and beside the list a table,
which gives the index of a text. A new text goes into both of them, so that they agree
(`Registry.Agrees`).
-/

namespace Downlevel.SourceMap

/-- Texts that are called by their index. -/
structure Registry where
  /-- The texts, in the order in which they have been registered. -/
  entries : List String := []
  /-- The texts with their indices, the last one first. -/
  indices : List (String × Nat) := []
  deriving DecidableEq, Inhabited

namespace Registry

/-- The index that the table has for a text. -/
def index? (r : Registry) (text : String) : Option Nat := r.indices.lookup text

/-- The registry with a new text behind the others. -/
def extend (r : Registry) (text : String) : Registry where
  entries := r.entries ++ [text]
  indices := (text, r.entries.length) :: r.indices

/-- Registers a text, unless the table has it; the result also gives its index. -/
def add (r : Registry) (text : String) : Registry × Nat :=
  match r.index? text with
  | some index => (r, index)
  | none => (r.extend text, r.entries.length)

/-- The table has an index for a text exactly if the list has the text there. -/
def Agrees (r : Registry) : Prop :=
  ∀ text index, r.index? text = some index ↔ r.entries[index]? = some text

variable {r : Registry} {text other : String} {index : Nat}

theorem add_of_some (h : r.index? text = some index) : r.add text = (r, index) := by
  rw [add, h]

theorem add_of_none (h : r.index? text = none) :
    r.add text = (r.extend text, r.entries.length) := by
  rw [add, h]

theorem index?_extend (r : Registry) (text other : String) :
    (r.extend text).index? other =
      if other = text then some r.entries.length else r.index? other := by
  rw [index?, extend, List.lookup_cons]
  split
  next h => rw [if_pos (beq_iff_eq.mp h)]
  next h => rw [if_neg (beq_eq_false_iff_ne.mp h), index?]

/-- Nothing that has been registered changes its place. -/
theorem entries_isPrefix_add (r : Registry) (text : String) :
    r.entries <+: (r.add text).1.entries := by
  cases h : r.index? text with
  | some index => simp only [add_of_some h, List.prefix_rfl]
  | none =>
    rw [add_of_none h]
    exact List.prefix_append _ _

/-! ## The list and the table -/

theorem agrees_empty : ({} : Registry).Agrees := by
  intro text index
  simp [index?]

theorem Agrees.index?_eq_none_iff (h : r.Agrees) : r.index? text = none ↔ text ∉ r.entries := by
  rw [Option.eq_none_iff_forall_ne_some, List.mem_iff_getElem?, not_exists]
  exact forall_congr' fun index => not_congr (h text index)

theorem Agrees.extend (h : r.Agrees) (hnew : text ∉ r.entries) : (r.extend text).Agrees := by
  intro other index
  rw [index?_extend]
  show _ ↔ (r.entries ++ [text])[index]? = some other
  rcases Nat.lt_trichotomy index r.entries.length with hlt | rfl | hgt
  · -- a place that is not new
    rw [List.getElem?_append_left hlt]
    split
    next hother =>
      subst hother
      constructor
      · intro hindex
        exact absurd (Option.some.inj hindex) (Nat.ne_of_gt hlt)
      · intro hplace
        exact absurd (List.mem_of_getElem? hplace) hnew
    next => exact h other index
  · -- the new place
    rw [List.getElem?_concat_length, Option.some.injEq]
    split
    next hother => simp [hother]
    next hother =>
      rw [h other]
      simp [Ne.symm hother]
  · -- no place
    have hlength : (r.entries ++ [text]).length ≤ index := by
      simp only [List.length_append, List.length_singleton]
      exact hgt
    rw [List.getElem?_eq_none hlength]
    split
    next => simp [Nat.ne_of_lt hgt]
    next => rw [h other, List.getElem?_eq_none (Nat.le_of_lt hgt)]

theorem Agrees.add (h : r.Agrees) (text : String) : (r.add text).1.Agrees := by
  cases hindex : r.index? text with
  | some index =>
    rw [add_of_some hindex]
    exact h
  | none =>
    rw [add_of_none hindex]
    exact h.extend (h.index?_eq_none_iff.mp hindex)

/-- The index that a text is given is the one at which the list has it. -/
theorem Agrees.getElem?_add (h : r.Agrees) (text : String) :
    (r.add text).1.entries[(r.add text).2]? = some text := by
  cases hindex : r.index? text with
  | some index =>
    rw [add_of_some hindex]
    exact (h text index).mp hindex
  | none =>
    rw [add_of_none hindex]
    exact List.getElem?_concat_length

/-- A new text goes behind the others, and a known one changes nothing. -/
theorem Agrees.entries_add (h : r.Agrees) (text : String) :
    (r.add text).1.entries = if text ∈ r.entries then r.entries else r.entries ++ [text] := by
  cases hindex : r.index? text with
  | some index =>
    have hmem : text ∈ r.entries := List.mem_of_getElem? ((h text index).mp hindex)
    rw [add_of_some hindex, if_pos hmem]
  | none =>
    rw [add_of_none hindex, if_neg (h.index?_eq_none_iff.mp hindex), Registry.extend]

end Registry

end Downlevel.SourceMap
