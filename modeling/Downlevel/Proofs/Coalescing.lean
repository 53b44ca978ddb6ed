import Downlevel.Proofs.Generation
import Downlevel.Proofs.Resolution

/-!
# Mappings that are left out

A mapping is left out if it continues the one added before it: on the same line, with the same
origin. What it would have shown is then shown by the other one, provided that this one stands
before it in the generated text, too, and nothing else comes between. But a generator compares
mappings in the order in which they are added, whereas a position is resolved in the order of
generated positions.

Main statement: the map resolves every position as all added mappings would, exactly if every
mapping that is left out has its origin from the mapping next before it on its line
(`Generator.resolves_iff`). If the mappings of each line are added from left to right this is so, in
whatever order the lines come. If they are added from right to left it need not be so.
-/

namespace Downlevel

namespace Mapping

/-- Where a position goes that resolves to the mapping. -/
def target (m : Mapping) : Nat × Position × Option Nat := (m.source, m.origin, m.name)

/-- The mapping is on the line of `p` and not behind `p`. -/
def Reaches (m : Mapping) (p : Position) : Prop :=
  m.generated.line = p.line ∧ m.generated.column ≤ p.column

theorem continues_iff {m previous : Mapping} : m.continues previous = true ↔
    previous.generated.line = m.generated.line ∧ previous.target = m.target := by
  simp only [continues, target, Bool.and_eq_true, beq_iff_eq, Prod.mk.injEq, and_assoc]

theorem continues_trans {l m n : Mapping} (h : m.continues l = true) (h' : n.continues m = true) :
    n.continues l = true := by
  rw [continues_iff] at *
  exact ⟨h.1.trans h'.1, h.2.trans h'.2⟩

theorem Reaches.trans {m n : Mapping} {p : Position} (h : m.Reaches n.generated)
    (h' : n.Reaches p) : m.Reaches p :=
  ⟨h.1.trans h'.1, h.2.trans h'.2⟩

theorem generated_eq {m n : Mapping} (hline : m.generated.line = n.generated.line)
    (hcolumn : m.generated.column = n.generated.column) : m.generated = n.generated := by
  rw [Position.mk.injEq]
  exact ⟨hline, hcolumn⟩

end Mapping

namespace SourceMap

/-! ## Nearest mappings -/

/-- Of the mappings that reach `p`, the one furthest to the right. -/
structure Nearest (ms : List Mapping) (p : Position) (m : Mapping) : Prop where
  mem : m ∈ ms
  reaches : m.Reaches p
  last : ∀ n ∈ ms, n.Reaches p → n.generated.column ≤ m.generated.column

/-- What a position resolves to: a source, a position in it and a name. -/
def target? (segments : List Mapping) (p : Position) : Option (Nat × Position × Option Nat) :=
  (resolve? segments p).map Mapping.target

variable {ms sorted : List Mapping} {p : Position} {m : Mapping}

theorem Nearest.self (hmem : m ∈ ms) : Nearest ms m.generated m :=
  ⟨hmem, ⟨rfl, le_rfl⟩, fun _ _ hreaches => hreaches.2⟩

theorem mem_visible_iff {n : Mapping} :
    n ∈ sorted.filter (fun m => m.generated.line == p.line && m.generated.column ≤ p.column) ↔
      n ∈ sorted ∧ n.Reaches p := by
  simp [Mapping.Reaches]

theorem nearest_of_resolve? (hsorted : StablyOrdered ms sorted) (h : resolve? sorted p = some m) :
    Nearest ms p m := by
  obtain ⟨earlier, hvisible⟩ := List.getLast?_eq_some_iff.mp h
  have hm : m ∈ sorted ∧ m.Reaches p := by
    rw [← mem_visible_iff, hvisible]
    exact List.mem_append_right _ List.mem_cons_self
  refine ⟨hsorted.perm.mem_iff.mp hm.1, hm.2, fun n hn hreaches => ?_⟩
  have hn := mem_visible_iff.mpr ⟨hsorted.perm.mem_iff.mpr hn, hreaches⟩
  have hordered := hsorted.ordered.sublist
    (List.filter_sublist
      (p := fun m => m.generated.line == p.line && m.generated.column ≤ p.column))
  rw [hvisible] at hn hordered
  rcases List.mem_append.mp hn with hn | hn
  · -- what is visible with `m` is on its line, so that only columns are left to compare
    have hle := (List.pairwise_append.mp hordered).2.2 n hn m List.mem_cons_self
    have hline := hreaches.1.trans hm.2.1.symm
    rw [Position.le_iff] at hle
    omega
  · rw [List.mem_singleton.mp hn]

theorem exists_resolve? (hsorted : StablyOrdered ms sorted) (hmem : m ∈ ms)
    (hreaches : m.Reaches p) : ∃ n, resolve? sorted p = some n := by
  have hvisible := mem_visible_iff.mpr ⟨hsorted.perm.mem_iff.mpr hmem, hreaches⟩
  exact ⟨_, List.getLast?_eq_some_getLast (List.ne_nil_of_mem hvisible)⟩

theorem exists_nearest (hmem : m ∈ ms) (hreaches : m.Reaches p) : ∃ n, Nearest ms p n := by
  obtain ⟨n, hn⟩ := exists_resolve? (stablyOrdered_mergeSort ms) hmem hreaches
  exact ⟨n, nearest_of_resolve? (stablyOrdered_mergeSort ms) hn⟩

theorem eq_of_generated_eq {n : Mapping} (hdistinct : (ms.map (·.generated)).Nodup) (hm : m ∈ ms)
    (hn : n ∈ ms) (h : m.generated = n.generated) : m = n :=
  List.inj_on_of_nodup_map hdistinct hm hn h

theorem Nearest.unique {n : Mapping} (hdistinct : (ms.map (·.generated)).Nodup)
    (hm : Nearest ms p m) (hn : Nearest ms p n) : m = n := by
  apply eq_of_generated_eq hdistinct hm.mem hn.mem
  have hline := hm.reaches.1.trans hn.reaches.1.symm
  have hcolumn := Nat.le_antisymm (hn.last m hm.mem hm.reaches) (hm.last n hn.mem hn.reaches)
  exact Mapping.generated_eq hline hcolumn

theorem target?_eq_some_iff (hsorted : StablyOrdered ms sorted)
    (hdistinct : (ms.map (·.generated)).Nodup) {t : Nat × Position × Option Nat} :
    target? sorted p = some t ↔ ∃ m, Nearest ms p m ∧ m.target = t := by
  rw [target?, Option.map_eq_some_iff]
  constructor
  · rintro ⟨m, hm, ht⟩
    exact ⟨m, nearest_of_resolve? hsorted hm, ht⟩
  · rintro ⟨m, hm, ht⟩
    obtain ⟨n, hn⟩ := exists_resolve? hsorted hm.mem hm.reaches
    rw [hm.unique hdistinct (nearest_of_resolve? hsorted hn)] at ht
    exact ⟨n, hn, ht⟩

/-! ## What is left out -/

/-- The mapping next before `m` on its line is `q`. -/
structure JustBefore (ms : List Mapping) (q m : Mapping) : Prop where
  mem : q ∈ ms
  line : q.generated.line = m.generated.line
  column : q.generated.column < m.generated.column
  last : ∀ n ∈ ms, n.generated.line = m.generated.line →
    n.generated.column < m.generated.column → n.generated.column ≤ q.generated.column

theorem exists_justBefore {n : Mapping} (hn : n ∈ ms)
    (hline : n.generated.line = m.generated.line)
    (hcolumn : n.generated.column < m.generated.column) : ∃ q, JustBefore ms q m := by
  have hbefore (k : Mapping) : k ∈ ms.filter (·.generated.column < m.generated.column) ↔
      k ∈ ms ∧ k.generated.column < m.generated.column := by simp
  obtain ⟨q, hq⟩ := exists_nearest ((hbefore n).mpr ⟨hn, hcolumn⟩) ⟨hline, hcolumn.le⟩
  obtain ⟨hmem, hlt⟩ := (hbefore q).mp hq.mem
  refine ⟨q, hmem, hq.reaches.1, hlt, fun k hk hkline hkcolumn => ?_⟩
  exact hq.last k ((hbefore k).mpr ⟨hk, hkcolumn⟩) ⟨hkline, hkcolumn.le⟩

/-- Every mapping that continues the one added before it has its origin from the mapping next before
it on its line. -/
def NothingLost (ms : List Mapping) : Prop :=
  ∀ before l m after, ms = before ++ l :: m :: after → m.continues l = true →
    ∃ q, JustBefore ms q m ∧ q.target = m.target

namespace Generator

def addMappings (g : Generator) (ms : List Mapping) : Generator := ms.foldl addMapping g

theorem addMappings_append (g : Generator) (ms more : List Mapping) :
    g.addMappings (ms ++ more) = (g.addMappings ms).addMappings more :=
  List.foldl_append

/-- Once a mapping has been added, the last one kept has its line and its origin. -/
theorem exists_getLast?_addMapping (g : Generator) (l : Mapping) :
    ∃ last, (g.addMapping l).kept.toList.getLast? = some last ∧ l.continues last = true := by
  rcases g.kept_addMapping l with hadd | ⟨hadd, last, hlast, hcontinues⟩
  · rw [hadd, List.getLast?_concat]
    exact ⟨l, rfl, Mapping.continues_iff.mpr ⟨rfl, rfl⟩⟩
  · rw [hadd]
    exact ⟨last, hlast, hcontinues⟩

/-- Behind a mapping that has been added, one that continues it makes no difference. -/
theorem addMapping_of_continues (g : Generator) {l : Mapping} (h : m.continues l = true) :
    (g.addMapping l).addMapping m = g.addMapping l := by
  obtain ⟨last, hlast, hcontinues⟩ := g.exists_getLast?_addMapping l
  rw [Array.getLast?_toList] at hlast
  rw [addMapping, hlast, Option.any_some, if_pos (Mapping.continues_trans hcontinues h)]

theorem addMappings_of_continues (g : Generator) {l : Mapping} (h : m.continues l = true)
    (before after : List Mapping) :
    g.addMappings (before ++ l :: m :: after) = g.addMappings (before ++ l :: after) := by
  rw [addMappings_append, addMappings_append]
  show (((g.addMappings before).addMapping l).addMapping m).addMappings after =
    ((g.addMappings before).addMapping l).addMappings after
  rw [addMapping_of_continues _ h]

theorem kept_addMappings_sublist (g : Generator) (ms : List Mapping) :
    (g.addMappings ms).kept.toList.Sublist (g.kept.toList ++ ms) := by
  induction ms generalizing g with
  | nil => exact List.sublist_append_left _ _
  | cons n rest ih =>
    apply (ih (g.addMapping n)).trans
    rcases g.kept_addMapping n with hadd | ⟨hadd, -⟩
    · rw [hadd, List.append_assoc]
      rfl
    · rw [hadd]
      exact (List.sublist_cons_self n rest).append_left _

theorem mem_kept_addMappings {g : Generator} (h : m ∈ g.kept.toList) (ms : List Mapping) :
    m ∈ (g.addMappings ms).kept.toList := by
  induction ms generalizing g with
  | nil => exact h
  | cons n rest ih =>
    apply ih
    rcases g.kept_addMapping n with hadd | ⟨hadd, -⟩
    · rw [hadd]
      exact List.mem_append_left _ h
    · rw [hadd]
      exact h

theorem exists_continues_of_not_kept {g : Generator} (hfresh : g.kept = #[]) (hmem : m ∈ ms)
    (h : m ∉ (g.addMappings ms).kept.toList) :
    ∃ before l after, ms = before ++ l :: m :: after ∧ m.continues l = true := by
  obtain ⟨before, after, rfl⟩ := List.append_of_mem hmem
  rw [addMappings_append] at h
  -- whatever follows, `m` is left out when it is added
  have hskipped : m ∉ ((g.addMappings before).addMapping m).kept.toList :=
    fun hkept => h (mem_kept_addMappings hkept after)
  rcases (g.addMappings before).kept_addMapping m with hadd | ⟨-, last, hlast, hcontinues⟩
  · rw [hadd] at hskipped
    exact absurd (List.mem_append_right _ List.mem_cons_self) hskipped
  rcases List.eq_nil_or_concat before with rfl | ⟨earlier, l, rfl⟩
  · rw [addMappings, List.foldl_nil, hfresh] at hlast
    cases hlast
  · obtain ⟨last', hlast', hl⟩ := (g.addMappings earlier).exists_getLast?_addMapping l
    rw [List.concat_eq_append, addMappings_append] at hlast
    obtain rfl : last' = last := Option.some.inj (hlast'.symm.trans hlast)
    rw [Mapping.continues_iff] at hcontinues hl
    refine ⟨earlier, l, after, by simp, Mapping.continues_iff.mpr ?_⟩
    exact ⟨hl.1.symm.trans hcontinues.1, hl.2.symm.trans hcontinues.2⟩

/-! ## Resolving from what is kept -/

section Kept

variable {g : Generator} (hfresh : g.kept = #[])

include hfresh

theorem kept_sublist (ms : List Mapping) : (g.addMappings ms).kept.toList.Sublist ms := by
  simpa [hfresh] using g.kept_addMappings_sublist ms

theorem kept_distinct (hdistinct : (ms.map (·.generated)).Nodup) :
    ((g.addMappings ms).kept.toList.map (·.generated)).Nodup :=
  hdistinct.sublist ((kept_sublist hfresh ms).map _)

/-- A mapping that is kept shows itself, and one that is left out is shown by a mapping that is kept
before it, with nothing kept between. -/
theorem exists_nearest_self (hdistinct : (ms.map (·.generated)).Nodup)
    (hlost : NothingLost ms) (hmem : m ∈ ms) :
    ∃ n, Nearest (g.addMappings ms).kept.toList m.generated n ∧ n.target = m.target := by
  -- along the mappings of the line, from left to right
  induction hcolumn : m.generated.column using Nat.strongRecOn generalizing m with
  | ind column ih =>
    by_cases hkept : m ∈ (g.addMappings ms).kept.toList
    · exact ⟨m, .self hkept, rfl⟩
    obtain ⟨before, l, after, hms, hcontinues⟩ := exists_continues_of_not_kept hfresh hmem hkept
    obtain ⟨q, hq, htarget⟩ := hlost before l m after hms hcontinues
    obtain ⟨n, hn, hntarget⟩ := ih q.generated.column (hcolumn ▸ hq.column) hq.mem rfl
    have hreaches : q.Reaches m.generated := ⟨hq.line, hq.column.le⟩
    refine ⟨n, ⟨hn.mem, hn.reaches.trans hreaches, ?_⟩, hntarget.trans htarget⟩
    intro k hk hkreaches
    have hkmem := (kept_sublist hfresh ms).subset hk
    -- `m` itself is not kept, so that what is kept up to there stands before it
    have hne : k.generated.column ≠ m.generated.column := by
      intro heq
      have hsame := Mapping.generated_eq hkreaches.1 heq
      rw [eq_of_generated_eq hdistinct hkmem hmem hsame] at hk
      exact hkept hk
    have hlt := lt_of_le_of_ne hkreaches.2 hne
    exact hn.last k hk ⟨hkreaches.1.trans hq.line.symm, hq.last k hkmem hkreaches.1 hlt⟩

/-- So is every position behind it, up to the next mapping. -/
theorem exists_nearest_kept (hdistinct : (ms.map (·.generated)).Nodup)
    (hlost : NothingLost ms) (hm : Nearest ms p m) :
    ∃ n, Nearest (g.addMappings ms).kept.toList p n ∧ n.target = m.target := by
  obtain ⟨n, hn, htarget⟩ := exists_nearest_self hfresh hdistinct hlost hm.mem
  refine ⟨n, ⟨hn.mem, hn.reaches.trans hm.reaches, fun k hk hreaches => ?_⟩, htarget⟩
  have hcolumn := hm.last k ((kept_sublist hfresh ms).subset hk) hreaches
  exact hn.last k hk ⟨hreaches.1.trans hm.reaches.1.symm, hcolumn⟩

theorem target?_eq_of_nothingLost (hdistinct : (ms.map (·.generated)).Nodup)
    (hsorted : StablyOrdered (g.addMappings ms).kept.toList sorted) (hlost : NothingLost ms) :
    target? sorted p = target? (ms.mergeSort Mapping.notAfter) p := by
  have hkept := kept_distinct hfresh hdistinct
  ext t
  rw [target?_eq_some_iff hsorted hkept,
    target?_eq_some_iff (stablyOrdered_mergeSort ms) hdistinct]
  constructor
  · rintro ⟨n, hn, rfl⟩
    have hmem := (kept_sublist hfresh ms).subset hn.mem
    obtain ⟨m, hm⟩ := exists_nearest hmem hn.reaches
    obtain ⟨n', hn', htarget⟩ := exists_nearest_kept hfresh hdistinct hlost hm
    rw [hn'.unique hkept hn] at htarget
    exact ⟨m, hm, htarget.symm⟩
  · rintro ⟨m, hm, rfl⟩
    exact exists_nearest_kept hfresh hdistinct hlost hm

theorem not_mem_kept_of_continues {l : Mapping} {before after : List Mapping}
    (hdistinct : ((before ++ l :: m :: after).map (·.generated)).Nodup)
    (h : m.continues l = true) :
    m ∉ (g.addMappings (before ++ l :: m :: after)).kept.toList := by
  rw [addMappings_of_continues g h]
  intro hkept
  have hmem := (kept_sublist hfresh (before ++ l :: after)).subset hkept
  have hnodup := List.Nodup.of_map _ hdistinct
  rw [List.append_cons, List.nodup_middle, ← List.append_cons] at hnodup
  exact (List.nodup_cons.mp hnodup).1 hmem

theorem nothingLost_of_target?_eq (hdistinct : (ms.map (·.generated)).Nodup)
    (hsorted : StablyOrdered (g.addMappings ms).kept.toList sorted)
    (h : ∀ p, target? sorted p = target? (ms.mergeSort Mapping.notAfter) p) :
    NothingLost ms := by
  intro before l m after hms hcontinues
  have hkept := kept_distinct hfresh hdistinct
  have hall := stablyOrdered_mergeSort ms
  have hmem : m ∈ ms := by simp [hms]
  -- what shows `m` is kept, so that it is another mapping and stands before `m`
  have hself := (target?_eq_some_iff hall hdistinct).mpr ⟨m, .self hmem, rfl⟩
  rw [← h] at hself
  obtain ⟨n, hn, hntarget⟩ := (target?_eq_some_iff hsorted hkept).mp hself
  have hnmem := (kept_sublist hfresh ms).subset hn.mem
  have hne : n.generated.column ≠ m.generated.column := by
    intro heq
    have hsame := eq_of_generated_eq hdistinct hnmem hmem
      (Mapping.generated_eq hn.reaches.1 heq)
    have hm := hsame ▸ hn.mem
    subst hms
    exact not_mem_kept_of_continues hfresh hdistinct hcontinues hm
  have hlt := lt_of_le_of_ne hn.reaches.2 hne
  obtain ⟨q, hq⟩ := exists_justBefore hnmem hn.reaches.1 hlt
  refine ⟨q, hq, ?_⟩
  -- from the place of `q` on it is the same mapping that shows
  have hshows : Nearest (g.addMappings ms).kept.toList q.generated n := by
    refine ⟨hn.mem, ⟨hn.reaches.1.trans hq.line.symm, hq.last n hnmem hn.reaches.1 hlt⟩, ?_⟩
    intro k hk hreaches
    exact hn.last k hk (hreaches.trans ⟨hq.line, hq.column.le⟩)
  have hplace := (target?_eq_some_iff hsorted hkept).mpr ⟨n, hshows, rfl⟩
  rw [h, (target?_eq_some_iff hall hdistinct).mpr ⟨q, .self hq.mem, rfl⟩] at hplace
  exact (Option.some.inj hplace).trans hntarget

end Kept

theorem nothingLost_of_leftToRight (h : ms.Pairwise fun m n =>
    m.generated.line = n.generated.line → m.generated.column < n.generated.column) :
    NothingLost ms := by
  rintro before l m after rfl hcontinues
  obtain ⟨hline, htarget⟩ := Mapping.continues_iff.mp hcontinues
  obtain ⟨-, hbehind, hbefore⟩ := List.pairwise_append.mp h
  obtain ⟨hl, hbehind⟩ := List.pairwise_cons.mp hbehind
  obtain ⟨hm, -⟩ := List.pairwise_cons.mp hbehind
  refine ⟨l, ⟨by simp, hline, hl m List.mem_cons_self hline, ?_⟩, htarget⟩
  intro n hn hnline hncolumn
  rcases List.mem_append.mp hn with hn | hn
  · exact (hbefore n hn l List.mem_cons_self (hnline.trans hline.symm)).le
  rcases List.mem_cons.mp hn with rfl | hn
  · exact le_rfl
  rcases List.mem_cons.mp hn with rfl | hn
  · exact absurd hncolumn (Nat.lt_irrefl _)
  · have := hm n hn hnline.symm
    omega

/-- In whatever order mappings at distinct places are added, the map of those that are kept resolves
every position as all of them would, exactly if each mapping that is left out has its origin from
the mapping next before it on its line. Adding the mappings of each line from left to right is
enough for that. -/
theorem resolves_iff {g : Generator} {ms : List Mapping} (hfresh : g.kept = #[])
    (hwords : ∀ m ∈ ms, m.WordSized) (hdistinct : (ms.map (·.generated)).Nodup) :
    (∃ segments, decodeMappings? (g.addMappings ms).generate.mappings = some segments ∧
      ((∀ p, target? segments p = target? (ms.mergeSort Mapping.notAfter) p) ↔
        NothingLost ms)) ∧
    ((ms.Pairwise fun m n =>
      m.generated.line = n.generated.line → m.generated.column < n.generated.column) →
        NothingLost ms) := by
  have hread := decodeMappings?_encodeMappings
    fun m hm => hwords m ((kept_sublist hfresh ms).subset hm)
  have hsorted := stablyOrdered_mergeSort (g.addMappings ms).kept.toList
  refine ⟨⟨_, hread, ?_, ?_⟩, nothingLost_of_leftToRight⟩
  · exact nothingLost_of_target?_eq hfresh hdistinct hsorted
  · exact fun hlost p => target?_eq_of_nothingLost hfresh hdistinct hsorted hlost

/-- Two lines that are added in turns, one of which has a mapping that is left out. -/
theorem resolves_two_lines :
    let ms : List Mapping := [⟨⟨1, 0⟩, 0, ⟨4, 0⟩, none⟩, ⟨⟨0, 0⟩, 0, ⟨3, 2⟩, some 0⟩,
      ⟨⟨0, 5⟩, 0, ⟨3, 2⟩, some 0⟩, ⟨⟨1, 7⟩, 0, ⟨3, 2⟩, some 0⟩]
    let g : Generator := { file := "out" }
    (∀ m ∈ ms, m.WordSized) ∧ (ms.map (·.generated)).Nodup ∧
      (g.addMappings ms).kept.size = 3 ∧
      ∃ segments, decodeMappings? (g.addMappings ms).generate.mappings = some segments ∧
        ∀ p, target? segments p = target? (ms.mergeSort Mapping.notAfter) p := by
  intro ms g
  have hwords : ∀ m ∈ ms, m.WordSized := by decide
  have hdistinct : (ms.map (·.generated)).Nodup := by decide
  have hsize : (g.addMappings ms).kept.size = 3 := by decide
  obtain ⟨⟨segments, hread, hiff⟩, hlost⟩ := resolves_iff (g := g) rfl hwords hdistinct
  have hsame := hiff.mpr (hlost (by decide))
  exact ⟨hwords, hdistinct, hsize, segments, hread, hsame⟩

/-- Two mappings of one origin, the right one of which is added first: the left one is left out, and
what stands between them resolves to nothing. -/
theorem not_resolves_right_to_left :
    let ms : List Mapping := [⟨⟨0, 10⟩, 0, ⟨0, 0⟩, none⟩, ⟨⟨0, 0⟩, 0, ⟨0, 0⟩, none⟩]
    let g : Generator := { file := "out" }
    (∀ m ∈ ms, m.WordSized) ∧ (ms.map (·.generated)).Nodup ∧
      ∃ segments, decodeMappings? (g.addMappings ms).generate.mappings = some segments ∧
        target? segments ⟨0, 5⟩ = none ∧
        target? (ms.mergeSort Mapping.notAfter) ⟨0, 5⟩ = some (0, ⟨0, 0⟩, none) := by
  intro ms g
  have hwords : ∀ m ∈ ms, m.WordSized := by decide
  have hkept : (g.addMappings ms).kept.toList = [⟨⟨0, 10⟩, 0, ⟨0, 0⟩, none⟩] := by decide
  have hread : decodeMappings? (g.addMappings ms).generate.mappings =
      some ((g.addMappings ms).kept.toList.mergeSort Mapping.notAfter) := by
    apply decodeMappings?_encodeMappings
    rw [hkept]
    decide
  refine ⟨hwords, by decide, _, hread, ?_, ?_⟩
  · rw [hkept, List.mergeSort_singleton]
    rfl
  · rw [List.mergeSort]
    cbv

end Generator

end SourceMap

end Downlevel
