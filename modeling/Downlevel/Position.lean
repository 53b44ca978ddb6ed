/-!
# Positions and ranges

A position is a line and a column, both counted from zero. Positions are ordered
lexicographically, and that order decides everything about ranges: covering two ranges takes the
earlier start and the later end, and containment compares both ends.

Layout only asks about lines. Two ranges *touch* when one of them ends on the line on which the
other starts; this is how a comment is recognised as sitting behind the construct before it.
-/

namespace Downlevel

/-- A place in a file; lines and columns count from zero. -/
structure Position where
  line : Nat
  column : Nat
  deriving DecidableEq, Inhabited

namespace Position

/-- Lexicographic order: the line decides, then the column. -/
protected def le (p q : Position) : Prop :=
  p.line < q.line ∨ (p.line = q.line ∧ p.column ≤ q.column)

instance : LE Position := ⟨Position.le⟩

instance (p q : Position) : Decidable (p ≤ q) :=
  inferInstanceAs (Decidable (p.line < q.line ∨ (p.line = q.line ∧ p.column ≤ q.column)))

theorem le_iff {p q : Position} :
    p ≤ q ↔ p.line < q.line ∨ (p.line = q.line ∧ p.column ≤ q.column) := Iff.rfl

instance : Min Position := minOfLe

instance : Max Position := maxOfLe

instance : Std.IsLinearOrder Position where
  le_refl p := by
    rw [le_iff]
    omega
  le_trans p q r := by
    simp only [le_iff]
    omega
  le_antisymm p q h hback := by
    obtain ⟨line, column⟩ := p
    obtain ⟨line', column'⟩ := q
    simp only [le_iff] at h hback
    simp only [mk.injEq]
    omega
  le_total p q := by
    simp only [le_iff]
    omega

instance : Std.LawfulOrderMax Position where
  max_eq_or p q := by
    show (if p ≤ q then q else p) = p ∨ (if p ≤ q then q else p) = q
    split <;> simp
  max_le_iff p q r := by
    show (if p ≤ q then q else p) ≤ r ↔ p ≤ r ∧ q ≤ r
    simp only [le_iff]
    split <;> omega

/-- How the first position relates to the second. -/
protected def compare (p q : Position) : Ordering :=
  (Ord.compare p.line q.line).then (Ord.compare p.column q.column)

/-- The text shown to people, who count lines and columns from one. -/
def text (p : Position) : String :=
  toString (p.line + 1) ++ ":" ++ toString (p.column + 1)

end Position

/-- The stretch of a file from `start` up to `stop`. -/
structure Range where
  start : Position
  stop : Position
  deriving DecidableEq, Inhabited

namespace Range

/-- The empty range at a position. -/
def point (p : Position) : Range := ⟨p, p⟩

/-- The smallest range that covers both. -/
def cover (a b : Range) : Range := ⟨min a.start b.start, max a.stop b.stop⟩

/-- The smallest range that covers `a` and all of `ranges`. -/
def coverList (a : Range) (ranges : List Range) : Range := ranges.foldl cover a

/-- The smallest range that covers all of `ranges`; there is none for no ranges. -/
def coverAll? : List Range → Option Range
  | [] => none
  | a :: ranges => some (a.coverList ranges)

/-- The second range lies within the first. -/
def contains (a b : Range) : Bool := a.start ≤ b.start && b.stop ≤ a.stop

/-- The range starts and ends on one line. -/
def isSingleLine (a : Range) : Bool := a.start.line == a.stop.line

/-- The range starts or ends on the line. -/
def meetsLine (a : Range) (line : Nat) : Bool := a.start.line == line || a.stop.line == line

/-- One range ends on the line on which the other starts. -/
def touches (a b : Range) : Bool := a.stop.line == b.start.line || b.stop.line == a.start.line

end Range

end Downlevel
