import Downlevel.Proofs.Containment

/-!
# What covers a list of ranges

Containment orders the ranges, and what covers a list of ranges is their least upper bound in this
order: a range contains it exactly if it contains all of the list (`Range.contains_coverAll?_iff`).
No other range does (`Range.coverAll?_eq_some_iff`), so two lists that are contained in the same
ranges have the same cover. That one fact is behind all freedom in how a list is covered: in what
order, how often each range is taken, and which of them are covered first.

Main statement: `Range.coverAll?_least`.
-/

namespace Downlevel.Range

variable {a b r outer all : Range} {ranges others : List Range}

/-- The range contains all of `ranges`. -/
def Bounds (outer : Range) (ranges : List Range) : Prop :=
  ∀ r ∈ ranges, outer.contains r = true

theorem contains_antisymm (h : a.contains b = true) (hback : b.contains a = true) : a = b := by
  obtain ⟨start, stop⟩ := a
  obtain ⟨start', stop'⟩ := b
  rw [contains_iff] at h hback
  rw [mk.injEq]
  exact ⟨Std.le_antisymm h.1 hback.1, Std.le_antisymm hback.2 h.2⟩

/-- What lies within the same ranges is the same. -/
theorem eq_of_contains_iff
    (h : ∀ outer : Range, outer.contains a = true ↔ outer.contains b = true) : a = b :=
  contains_antisymm ((h a).mp (contains_refl a)) ((h b).mpr (contains_refl b))

/-- No range lies within all others: there are positions behind its start. -/
theorem exists_not_contains (a : Range) : ∃ outer : Range, ¬ outer.contains a = true := by
  refine ⟨point ⟨a.start.line + 1, 0⟩, ?_⟩
  intro h
  have hstart : (⟨a.start.line + 1, 0⟩ : Position) ≤ a.start := (contains_iff.mp h).1
  simp only [Position.le_iff] at hstart
  omega

theorem bounds_flatten_iff {parts : List (List Range)} :
    outer.Bounds parts.flatten ↔ ∀ part ∈ parts, outer.Bounds part := by
  simp only [Bounds, List.mem_flatten]
  constructor
  · intro h part hpart r hr
    exact h r ⟨part, hpart, hr⟩
  · rintro h r ⟨part, hpart, hr⟩
    exact h part hpart r hr

/-! ## The least upper bound -/

theorem coverAll?_eq_none_iff : coverAll? ranges = none ↔ ranges = [] := by
  cases ranges <;> simp [coverAll?]

theorem contains_cover_iff :
    outer.contains (a.cover b) = true ↔ outer.contains a = true ∧ outer.contains b = true := by
  constructor
  · intro h
    refine ⟨contains_trans h (contains_cover_of_contains (contains_refl a) b), ?_⟩
    exact contains_trans h (contains_cover_right a b)
  · rintro ⟨ha, hb⟩
    exact contains_cover ha hb

theorem contains_coverList_iff :
    outer.contains (a.coverList ranges) = true ↔
      outer.contains a = true ∧ ∀ r ∈ ranges, outer.contains r = true := by
  constructor
  · intro h
    refine ⟨contains_trans h (contains_coverList_of_contains (contains_refl a) ranges), ?_⟩
    intro r hr
    exact contains_trans h (contains_coverList_of_mem hr a)
  · rintro ⟨ha, hranges⟩
    exact contains_coverList ha hranges

/-- A range contains what covers a list exactly if it contains all of the list. -/
theorem contains_coverAll?_iff (h : coverAll? ranges = some all) :
    outer.contains all = true ↔ outer.Bounds ranges := by
  cases ranges with
  | nil => cases h
  | cons first rest =>
    obtain rfl := Option.some.inj h
    rw [contains_coverList_iff, Bounds, List.forall_mem_cons]

theorem bounds_coverAll? (h : coverAll? ranges = some all) : all.Bounds ranges :=
  (contains_coverAll?_iff h).mp (contains_refl all)

theorem exists_coverAll?_of_mem (h : r ∈ ranges) :
    ∃ all, coverAll? ranges = some all ∧ all.contains r = true := by
  cases ranges with
  | nil => cases h
  | cons first rest => exact ⟨first.coverList rest, rfl, bounds_coverAll? rfl r h⟩

/-- The cover of a list is the one range of which this holds. -/
theorem coverAll?_eq_some_iff : coverAll? ranges = some all ↔
    ∀ outer : Range, outer.contains all = true ↔ outer.Bounds ranges := by
  constructor
  · intro h outer
    exact contains_coverAll?_iff h
  · intro h
    cases hcover : coverAll? ranges with
    | none =>
      -- every range contains all of no ranges
      obtain rfl := coverAll?_eq_none_iff.mp hcover
      obtain ⟨outer, houter⟩ := exists_not_contains all
      exact absurd ((h outer).mpr (List.forall_mem_nil _)) houter
    | some found =>
      have hsame : found = all := eq_of_contains_iff fun outer =>
        (contains_coverAll?_iff hcover).trans (h outer).symm
      rw [hsame]

/-- Lists that lie within the same ranges have the same cover. -/
theorem coverAll?_congr (h : ∀ outer : Range, outer.Bounds others ↔ outer.Bounds ranges) :
    coverAll? others = coverAll? ranges := by
  apply Option.ext
  intro all
  rw [coverAll?_eq_some_iff, coverAll?_eq_some_iff]
  simp only [h]

/-! ## Covers of covers -/

variable {parts : List (List Range)}

/-- If no part is empty, each of them has a cover. -/
theorem map_coverAll? (hparts : [] ∉ parts) :
    parts.map coverAll? = (parts.filterMap coverAll?).map some := by
  induction parts with
  | nil => rfl
  | cons part rest ih =>
    rw [List.mem_cons, not_or] at hparts
    obtain ⟨a, part, rfl⟩ := List.exists_cons_of_ne_nil (Ne.symm hparts.1)
    have hcover : coverAll? (a :: part) = some (a.coverList part) := rfl
    rw [List.map_cons, ih hparts.2, List.filterMap_cons_some hcover, List.map_cons, hcover]

/-- A range contains the covers of the parts exactly if it contains all that is in the parts. -/
theorem bounds_filterMap_iff :
    outer.Bounds (parts.filterMap coverAll?) ↔ outer.Bounds parts.flatten := by
  rw [bounds_flatten_iff]
  constructor
  · intro h part hpart
    cases hcover : coverAll? part with
    | none =>
      obtain rfl := coverAll?_eq_none_iff.mp hcover
      exact List.forall_mem_nil _
    | some all =>
      have hall := h all (List.mem_filterMap.mpr ⟨part, hpart, hcover⟩)
      exact (contains_coverAll?_iff hcover).mp hall
  · intro h all hall
    obtain ⟨part, hpart, hcover⟩ := List.mem_filterMap.mp hall
    exact (contains_coverAll?_iff hcover).mpr (h part hpart)

theorem coverAll?_filterMap (parts : List (List Range)) :
    coverAll? (parts.filterMap coverAll?) = coverAll? parts.flatten :=
  coverAll?_congr fun _ => bounds_filterMap_iff

/-- What covers a list of ranges is their least upper bound: there is none for no ranges, and
otherwise it contains all of them and lies within every range that does. If they start no later than
they end, so does it. Only which ranges the list has matters for it, and not their order, nor how
often each of them is there; and if the list is cut into parts that are not empty, covering the
covers of the parts gives the same. -/
theorem coverAll?_least (ranges : List Range) :
    (coverAll? ranges = none ↔ ranges = []) ∧
    (∀ all, coverAll? ranges = some all →
      (∀ r ∈ ranges, all.contains r = true) ∧
      (∀ outer : Range, (∀ r ∈ ranges, outer.contains r = true) → outer.contains all = true) ∧
      ((∀ r ∈ ranges, r.IsOrdered) → all.IsOrdered)) ∧
    (∀ others : List Range, (∀ r, r ∈ others ↔ r ∈ ranges) →
      coverAll? others = coverAll? ranges) ∧
    ∀ parts : List (List Range), parts.flatten = ranges → [] ∉ parts →
      ∃ covers, parts.map coverAll? = covers.map some ∧ coverAll? covers = coverAll? ranges := by
  refine ⟨coverAll?_eq_none_iff, ?_, ?_, ?_⟩
  · intro all hall
    have hbounds := bounds_coverAll? hall
    refine ⟨hbounds, fun outer => (contains_coverAll?_iff hall).mpr, ?_⟩
    intro hordered
    have hne : ranges ≠ [] := by
      rintro rfl
      cases hall
    -- one ordered range within it is enough
    obtain ⟨r, hr⟩ := List.exists_mem_of_ne_nil ranges hne
    exact (hordered r hr).of_contains (hbounds r hr)
  · intro others hsame
    apply coverAll?_congr
    intro outer
    simp only [Bounds, hsame]
  · rintro parts rfl hparts
    exact ⟨parts.filterMap coverAll?, map_coverAll? hparts, coverAll?_filterMap parts⟩

/-- Taken in another order, one range twice, and two of them covered first. -/
example :
    let a : Range := ⟨⟨3, 1⟩, ⟨4, 0⟩⟩
    let b : Range := ⟨⟨1, 7⟩, ⟨1, 9⟩⟩
    let c : Range := ⟨⟨1, 2⟩, ⟨2, 5⟩⟩
    coverAll? [a, b, c] = some ⟨⟨1, 2⟩, ⟨4, 0⟩⟩ ∧
      coverAll? [c, b, b, a] = coverAll? [a, b, c] ∧
      coverAll? [a, b.cover c] = coverAll? [a, b, c] := by decide

end Downlevel.Range
