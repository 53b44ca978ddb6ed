import Downlevel.Proofs.Rebinding

/-!
# First occurrences

Names that differ only in case are one variable, but a scope object needs one token for each. Here
it is shown which one is taken. Every sub-expression that is evaluated has an address, the way that
leads to it, and addresses are compared like words in a dictionary: an expression comes before its
parts, and what is left of a part before what is right of it.

The walk meets the sub-expressions in the order of their addresses (`Expression.enumerates`). Main
statement: of every variable that is read somewhere and is not global there, the captured token is
the one at the first such address (`Capture.ofOperands_first`).
-/

namespace Downlevel

/-! ## Addresses -/

/-- The way to a sub-expression: at each step, the number of sub-expressions to pass over. -/
abbrev Address := List Nat

namespace Address

/-- The address with one more expression to pass over at the first step. -/
def pass : Address → Address
  | [] => []
  | i :: rest => (i + 1) :: rest

theorem pass_lt_pass {p q : Address} (h : p < q) : p.pass < q.pass := by
  cases p with
  | nil =>
    cases q with
    | nil => exact absurd h (List.not_lt_nil [])
    | cons => exact List.nil_lt_cons _ _
  | cons i rest =>
    cases q with
    | nil => exact absurd h (List.not_lt_nil _)
    | cons j more =>
      show (i + 1) :: rest < (j + 1) :: more
      rw [List.cons_lt_cons_iff] at h ⊢
      rcases h with h | ⟨rfl, h⟩
      · exact .inl (Nat.succ_lt_succ h)
      · exact .inr ⟨rfl, h⟩

end Address

namespace Expression

/-- The sub-expression at the address. -/
def at? : Expression → Address → Option Expression
  | e, [] => some e
  | e, i :: rest => e.evaluated[i]?.bind (·.at? rest)

/-- The sub-expression of one of the expressions: the first step leads to the expression. -/
def atAny? (list : List Expression) : Address → Option Expression
  | [] => none
  | i :: rest => list[i]?.bind (·.at? rest)

end Expression

/-- The list has what there is at any address, in the order of the addresses. -/
def Enumerates (at? : Address → Option Expression) (list : List Expression) : Prop :=
  ∃ addresses : List Address, addresses.Pairwise (· < ·) ∧ addresses.map at? = list.map some ∧
    ∀ address, (at? address).isSome → address ∈ addresses

/-! ## The walk in the order of addresses -/

namespace Expression

/-- Nothing is at the empty address of a list. -/
theorem ne_nil_of_atAny? {list found : List Expression} {addresses : List Address}
    (h : addresses.map (atAny? list) = found.map some) {p : Address} (hp : p ∈ addresses) :
    p ≠ [] := by
  rintro rfl
  have hmem : atAny? list [] ∈ addresses.map (atAny? list) := List.mem_map_of_mem hp
  rw [h] at hmem
  obtain ⟨_, _, hsome⟩ := List.mem_map.mp hmem
  cases hsome

/-- If the walk through each expression of a list keeps to the order, so does the walk through all
of them. -/
theorem enumerates_flatMap {list : List Expression}
    (h : ∀ e ∈ list, Enumerates e.at? e.reachable) :
    Enumerates (atAny? list) (list.flatMap reachable) := by
  induction list with
  | nil =>
    refine ⟨[], .nil, rfl, ?_⟩
    intro address haddress
    cases address <;> simp [atAny?] at haddress
  | cons e rest ih =>
    obtain ⟨he, hrest⟩ := List.forall_mem_cons.mp h
    obtain ⟨addresses, haddresses, hat, hall⟩ := he
    obtain ⟨others, hothers, hatOthers, hallOthers⟩ := ih hrest
    have hne : ∀ p ∈ others, p ≠ [] := fun p hp => ne_nil_of_atAny? hatOthers hp
    refine ⟨addresses.map (0 :: ·) ++ others.map Address.pass, ?_, ?_, ?_⟩
    · refine List.pairwise_append.mpr ⟨?_, ?_, ?_⟩
      · refine List.pairwise_map.mpr (haddresses.imp ?_)
        intro p q hlt
        exact List.cons_lt_cons_iff.mpr (.inr ⟨rfl, hlt⟩)
      · exact List.pairwise_map.mpr (hothers.imp Address.pass_lt_pass)
      · intro p hp q hq
        obtain ⟨p, -, rfl⟩ := List.mem_map.mp hp
        obtain ⟨q, hq', rfl⟩ := List.mem_map.mp hq
        cases q with
        | nil => exact absurd rfl (hne [] hq')
        | cons => exact List.cons_lt_cons_iff.mpr (.inl (Nat.succ_pos _))
    · have hpass : ∀ p ∈ others, atAny? (e :: rest) p.pass = atAny? rest p := by
        intro p hp
        cases p with
        | nil => exact absurd rfl (hne [] hp)
        | cons => rfl
      have hfirst : (addresses.map (0 :: ·)).map (atAny? (e :: rest)) = addresses.map e.at? := by
        rw [List.map_map]
        rfl
      have hlater : (others.map Address.pass).map (atAny? (e :: rest)) =
          others.map (atAny? rest) := by
        rw [List.map_map]
        exact List.map_congr_left hpass
      rw [List.map_append, hfirst, hlater, hat, hatOthers, List.flatMap_cons, List.map_append]
    · intro address haddress
      rw [List.mem_append, List.mem_map, List.mem_map]
      cases address with
      | nil => cases haddress
      | cons i more =>
        cases i with
        | zero => exact .inl ⟨more, hall more haddress, rfl⟩
        | succ i => exact .inr ⟨i :: more, hallOthers (i :: more) haddress, rfl⟩

/-- The walk meets the sub-expressions in the order of their addresses. -/
theorem enumerates (e : Expression) : Enumerates e.at? e.reachable := by
  induction e using WellFounded.induction (measure (sizeOf : Expression → Nat)).wf with
  | _ e ih =>
    obtain ⟨addresses, haddresses, hat, hall⟩ :=
      enumerates_flatMap fun part hpart => ih part (sizeOf_evaluated_lt hpart)
    have hbelow : ∀ p, p ≠ [] → e.at? p = atAny? e.evaluated p := by
      intro p hp
      cases p with
      | nil => exact absurd rfl hp
      | cons => rfl
    have hne : ∀ p ∈ addresses, p ≠ [] := fun p hp => ne_nil_of_atAny? hat hp
    refine ⟨[] :: addresses, List.pairwise_cons.mpr ⟨?_, haddresses⟩, ?_, ?_⟩
    · intro p hp
      cases p with
      | nil => exact absurd rfl (hne [] hp)
      | cons => exact List.nil_lt_cons _ _
    · have hmap : addresses.map e.at? = addresses.map (atAny? e.evaluated) :=
        List.map_congr_left fun p hp => hbelow p (hne p hp)
      rw [reachable_eq, List.map_cons, List.map_cons, hmap, hat, at?]
    · intro address haddress
      cases address with
      | nil => exact List.mem_cons_self
      | cons i rest =>
        rw [hbelow _ (List.cons_ne_nil i rest)] at haddress
        exact List.mem_cons_of_mem _ (hall _ haddress)

theorem enumerates_operands (operands : List Expression) :
    Enumerates (atAny? operands) (operands.flatMap reachable) :=
  enumerates_flatMap fun e _ => e.enumerates

end Expression

/-! ## The first of a kind -/

/-- What is found first in a list is what is at the first address. -/
theorem find?_filterMap_eq_some_iff {addresses : List Address}
    (haddresses : addresses.Pairwise (· < ·))
    {g : Address → Option Token} {p : Token → Bool} {v : Token} :
    (addresses.filterMap g).find? p = some v ↔
      ∃ address ∈ addresses, g address = some v ∧ p v = true ∧
        ∀ other ∈ addresses, ∀ w, g other = some w → p w = true → address ≤ other := by
  induction addresses with
  | nil => simp
  | cons first rest ih =>
    obtain ⟨hfirst, hrest⟩ := List.pairwise_cons.mp haddresses
    by_cases hmeets : ∃ w, g first = some w ∧ p w = true
    · -- the search ends here
      obtain ⟨w, hw, hpw⟩ := hmeets
      rw [List.filterMap_cons_some hw, List.find?_cons_of_pos hpw, Option.some_inj]
      constructor
      · rintro rfl
        refine ⟨first, List.mem_cons_self, hw, hpw, ?_⟩
        intro other hother _ _ _
        rcases List.mem_cons.mp hother with rfl | hother
        · exact Std.le_refl _
        · exact Std.le_of_lt (hfirst other hother)
      · rintro ⟨address, haddress, hv, -, hleast⟩
        rcases List.mem_cons.mp haddress with rfl | haddress
        · exact Option.some_inj.mp (hw.symm.trans hv)
        · have hle := hleast first List.mem_cons_self w hw hpw
          exact absurd (hfirst address haddress) (Std.not_lt.mpr hle)
    · have hskip : ((first :: rest).filterMap g).find? p = (rest.filterMap g).find? p := by
        cases hg : g first with
        | none => rw [List.filterMap_cons_none hg]
        | some w =>
          have hpw : ¬ p w = true := fun hpw => hmeets ⟨w, hg, hpw⟩
          rw [List.filterMap_cons_some hg, List.find?_cons_of_neg hpw]
      rw [hskip, ih hrest]
      constructor
      · rintro ⟨address, haddress, hv, hpv, hleast⟩
        refine ⟨address, List.mem_cons_of_mem _ haddress, hv, hpv, ?_⟩
        intro other hother w hw hpw
        rcases List.mem_cons.mp hother with rfl | hother
        · exact absurd ⟨w, hw, hpw⟩ hmeets
        · exact hleast other hother w hw hpw
      · rintro ⟨address, haddress, hv, hpv, hleast⟩
        rcases List.mem_cons.mp haddress with rfl | haddress
        · exact absurd ⟨v, hv, hpv⟩ hmeets
        · exact ⟨address, haddress, hv, hpv, fun other hother =>
            hleast other (List.mem_cons_of_mem _ hother)⟩

theorem Enumerates.mem_iff {at? : Address → Option Expression} {list : List Expression}
    (h : Enumerates at? list) {e : Expression} : e ∈ list ↔ ∃ address, at? address = some e := by
  obtain ⟨addresses, -, hat, hall⟩ := h
  have hmem : e ∈ list ↔ some e ∈ addresses.map at? := by simp [hat]
  rw [hmem, List.mem_map]
  constructor
  · rintro ⟨address, -, he⟩
    exact ⟨address, he⟩
  · rintro ⟨address, he⟩
    exact ⟨address, hall address (Option.isSome_iff_exists.mpr ⟨e, he⟩), he⟩

theorem Enumerates.find?_filterMap_eq_some_iff {at? : Address → Option Expression}
    {list : List Expression} (h : Enumerates at? list) {f : Expression → Option Token}
    {p : Token → Bool} {v : Token} :
    (list.filterMap f).find? p = some v ↔
      ∃ address, (at? address).bind f = some v ∧ p v = true ∧
        ∀ other w, (at? other).bind f = some w → p w = true → address ≤ other := by
  obtain ⟨addresses, haddresses, hat, hall⟩ := h
  have hlist : list.filterMap f = addresses.filterMap fun address => (at? address).bind f := by
    have hsome : list.filterMap f = (list.map some).filterMap fun e => e.bind f := by
      rw [List.filterMap_map]
      rfl
    rw [hsome, ← hat, List.filterMap_map]
    rfl
  -- where something is found, there is an address
  have hmem {address : Address} {w : Token} (hw : (at? address).bind f = some w) :
      address ∈ addresses := by
    obtain ⟨e, he, -⟩ := Option.bind_eq_some_iff.mp hw
    exact hall address (Option.isSome_iff_exists.mpr ⟨e, he⟩)
  rw [hlist, Downlevel.find?_filterMap_eq_some_iff haddresses]
  constructor
  · rintro ⟨address, -, hv, hpv, hleast⟩
    exact ⟨address, hv, hpv, fun other w hw => hleast other (hmem hw) w hw⟩
  · rintro ⟨address, hv, hpv, hleast⟩
    exact ⟨address, hmem hv, hv, hpv, fun other _ => hleast other⟩

namespace Capture

theorem mem_add_iff {captured : List Token} (h : Ordered captured) {name v : Token} :
    v ∈ add captured name ↔ v ∈ captured ∨ v = name ∧ ¬ Has captured (key name) := by
  induction captured with
  | nil => simp [add, Has]
  | cons first rest ih =>
    obtain ⟨hfirst, hrest⟩ := List.pairwise_cons.mp h
    rw [add]
    split
    next hlt =>
      -- the key is smaller than all that are there
      have hnot : ¬ Has (first :: rest) (key name) := by
        rintro ⟨w, hw, hkey⟩
        rcases List.mem_cons.mp hw with rfl | hw
        · exact String.lt_irrefl _ (hkey ▸ hlt)
        · exact String.lt_irrefl _ (hkey ▸ String.lt_trans hlt (hfirst w hw))
      simp [hnot, or_comm]
    next =>
      split
      next hkey => simp [Has, hkey]
      next hkey =>
        have hhas : Has (first :: rest) (key name) ↔ Has rest (key name) := by
          simp [Has, Ne.symm hkey]
        rw [List.mem_cons, ih hrest, List.mem_cons, hhas, or_assoc]

/-- What is taken is the first of its key, unless the key was there before. -/
theorem mem_foldl_add_iff {names captured : List Token} (h : Ordered captured) {v : Token} :
    v ∈ names.foldl add captured ↔
      v ∈ captured ∨ ¬ Has captured (key v) ∧ names.find? (key · == key v) = some v := by
  induction names generalizing captured with
  | nil => simp
  | cons name rest ih =>
    rw [List.foldl_cons, ih (ordered_add h name), mem_add_iff h, has_add]
    by_cases hkey : key name = key v
    · rw [List.find?_cons_of_pos (by simp [hkey]), Option.some_inj, hkey]
      grind
    · rw [List.find?_cons_of_neg (by simp [hkey])]
      grind

/-- At the address a name is read that the resolver takes neither for a namespace nor for a function
of the enclosing namespace. -/
def FreeAt (resolver : Resolver) (enclosing : Option String) (operands : List Expression)
    (address : Address) (name : Token) : Prop :=
  Expression.atAny? operands address = some (.identifier name) ∧
    resolver.startsWithNamespace [name.text] = false ∧
    resolver.isNamespaceFunction name.text enclosing = false

/-- The name, if the expression is one that is not global. -/
def free? (resolver : Resolver) (enclosing : Option String) (e : Expression) : Option Token :=
  e.identifier?.filter (!isGlobal resolver enclosing ·)

section FirstOccurrences

variable {resolver : Resolver} {enclosing : Option String} {operands : List Expression}

theorem bind_free?_eq_some_iff {address : Address} {name : Token} :
    (Expression.atAny? operands address).bind (free? resolver enclosing) = some name ↔
      FreeAt resolver enclosing operands address name := by
  rw [Option.bind_eq_some_iff]
  constructor
  · rintro ⟨e, he, hname⟩
    obtain ⟨hidentifier, hglobal⟩ := Option.filter_eq_some_iff.mp hname
    cases e with
    | identifier name =>
      cases hidentifier
      rw [Bool.not_eq_true', isGlobal, Bool.or_eq_false_iff] at hglobal
      exact ⟨he, hglobal⟩
    | _ => cases hidentifier
  · rintro ⟨he, hnamespace, hfunction⟩
    refine ⟨_, he, Option.filter_eq_some_iff.mpr ⟨rfl, ?_⟩⟩
    rw [Bool.not_eq_true', isGlobal, Bool.or_eq_false_iff]
    exact ⟨hnamespace, hfunction⟩

theorem ofOperands_eq_foldl : ofOperands resolver enclosing operands =
    ((operands.flatMap Expression.reachable).filterMap (free? resolver enclosing)).foldl add
      [] := by
  have hnames : (operands.flatMap Expression.names).filter (!isGlobal resolver enclosing ·) =
      (operands.flatMap Expression.reachable).filterMap (free? resolver enclosing) := by
    have hflat : operands.flatMap Expression.names =
        (operands.flatMap Expression.reachable).filterMap Expression.identifier? :=
      List.filterMap_flatMap.symm
    rw [hflat, List.filter_filterMap]
    rfl
  rw [ofOperands, hnames]

theorem mem_ofOperands_iff {v : Token} :
    v ∈ ofOperands resolver enclosing operands ↔
      ∃ address, FreeAt resolver enclosing operands address v ∧ ∀ other w,
        FreeAt resolver enclosing operands other w → key w = key v → address ≤ other := by
  rw [ofOperands_eq_foldl, mem_foldl_add_iff .nil,
    (Expression.enumerates_operands operands).find?_filterMap_eq_some_iff]
  simp [Has, bind_free?_eq_some_iff]

/-- A variable is captured if it is free at some address. -/
theorem has_ofOperands_iff_freeAt {k : String} :
    Has (ofOperands resolver enclosing operands) k ↔
      ∃ address name, FreeAt resolver enclosing operands address name ∧ key name = k := by
  have hfound (name : Token) :
      name ∈ (operands.flatMap Expression.reachable).filterMap (free? resolver enclosing) ↔
        ∃ address, FreeAt resolver enclosing operands address name := by
    simp only [← bind_free?_eq_some_iff, Option.bind_eq_some_iff, List.mem_filterMap,
      (Expression.enumerates_operands operands).mem_iff]
    grind
  rw [ofOperands_eq_foldl, has_foldl_add]
  simp only [hfound, Has, List.not_mem_nil, false_and, exists_false, or_false]
  grind

/-- The keys of the captured variables do not depend on the order of the operands. -/
theorem map_key_ofOperands_perm {others : List Expression} (h : operands.Perm others) :
    (ofOperands resolver enclosing operands).map key =
      (ofOperands resolver enclosing others).map key := by
  have hordered (list : List Expression) :
      ((ofOperands resolver enclosing list).map key).Pairwise (· < ·) :=
    List.pairwise_map.mpr (ordered_ofOperands resolver enclosing list)
  have hmem (k : String) : k ∈ (ofOperands resolver enclosing operands).map key ↔
      k ∈ (ofOperands resolver enclosing others).map key := by
    have hhas : Has (ofOperands resolver enclosing operands) k ↔
        Has (ofOperands resolver enclosing others) k := by
      simp only [has_ofOperands, h.mem_iff]
    simpa [Has] using hhas
  exact (hordered operands).eq_of_mem_iff (hordered others) hmem

end FirstOccurrences

/-- Of every variable that is free somewhere in the operands exactly one token is captured, the one
at the first address where it is free, and nothing else is captured. The keys of the captured tokens
go up, and they are the same for every order of the operands. -/
theorem ofOperands_first (resolver : Resolver) (enclosing : Option String)
    (operands : List Expression) :
    let captured := ofOperands resolver enclosing operands
    (∀ v, v ∈ captured ↔ ∃ address, FreeAt resolver enclosing operands address v ∧
      ∀ other w, FreeAt resolver enclosing operands other w → key w = key v → address ≤ other) ∧
    (∀ address name, FreeAt resolver enclosing operands address name →
      ∃ v ∈ captured, key v = key name) ∧
    captured.Pairwise (key · < key ·) ∧
    ∀ others, operands.Perm others →
      captured.map key = (ofOperands resolver enclosing others).map key := by
  intro captured
  refine ⟨fun v => mem_ofOperands_iff, ?_, ordered_ofOperands resolver enclosing operands, ?_⟩
  · intro address name hfree
    exact has_ofOperands_iff_freeAt.mpr ⟨address, name, hfree, rfl⟩
  · intro others hperm
    exact map_key_ofOperands_perm hperm

/-- A resolver that minds case takes `x` for a function, but not `X`. So `X` is captured, although
`x` is read before it; and which spelling of `f` is captured depends on the order of the operands,
but not that it is. -/
theorem ofOperands_first_spellings :
    let token (text : String) : Token := { (default : Token) with text }
    let name (text : String) : Expression := .identifier (token text)
    let resolver : Resolver := ⟨fun _ => false, fun name _ => name == "x"⟩
    let operands := [.call (name "f") default [name "x", name "X"] default, name "F"]
    let others := [name "F", .call (name "f") default [name "x", name "X"] default]
    FreeAt resolver none operands [0, 2] (token "X") ∧ operands.Perm others ∧
      ofOperands resolver none operands = [token "f", token "X"] ∧
      ofOperands resolver none others = [token "F", token "X"] ∧
      (∃ v ∈ ofOperands resolver none operands, key v = key (token "X")) ∧
      (ofOperands resolver none operands).map key = (ofOperands resolver none others).map key := by
  intro token name resolver operands others
  have hfree : FreeAt resolver none operands [0, 2] (token "X") := ⟨rfl, rfl, rfl⟩
  have hperm : operands.Perm others := List.Perm.swap _ _ _
  obtain ⟨-, hhas, -, hkeys⟩ := ofOperands_first resolver none operands
  exact ⟨hfree, hperm, by decide, by decide, hhas _ _ hfree, hkeys others hperm⟩

end Capture

end Downlevel
