import Mathlib.Data.String.Basic
import Downlevel.Proofs.Quantity

/-!
# The grammar of variable-length quantities

A quantity is a row of digits that all continue but the last. Quantities are written as a prefix
code: no code is the beginning of another one (`encode_prefixCode`). The reader accepts more than
what is written, namely every quantity of up to thirteen digits, and nothing else
(`decode?_grammar`). Which of them are the written ones is said by `IsCanonical`: those without a
zero group on top, which is like a leading zero, and without a sign before nothing.

The reader adds up the groups in a signed 64-bit word. As a loop over such words it is `readDigits`,
and `decode?` gives what the loop gives. For magnitudes below `2 ^ 62` no step of it overflows.
-/

namespace Downlevel.Vlq

/-! ## A prefix code -/

theorem length_encodeNat_le {n count : Nat} (h : n < 32 ^ (count + 1)) :
    (encodeNat n).length ≤ count + 1 := by
  induction count generalizing n with
  | zero =>
    rw [encodeNat, if_pos (by simpa using h)]
    exact Nat.le_refl _
  | succ count ih =>
    rw [encodeNat]
    split
    · simp
    · have hrest : n / 32 < 32 ^ (count + 1) := by
        rw [Nat.div_lt_iff_lt_mul (by omega), ← pow_succ]
        exact h
      exact Nat.succ_le_succ (ih hrest)

theorem length_encode_le {v : Int} (h : v.natAbs < 2 ^ 62) : (encode v).length ≤ maxDigits :=
  length_encodeNat_le (lt_of_lt_of_le (foldSign_lt h) (by norm_num))

/-- What a code begins with determines its integer. -/
theorem eq_of_encode_isPrefix {v w : Int} (hv : v.natAbs < 2 ^ 62) (hw : w.natAbs < 2 ^ 62)
    (h : encode v <+: encode w) : v = w := by
  obtain ⟨rest, hrest⟩ := h
  have hread := decode?_encode_append hv rest
  rw [hrest, ← List.append_nil (encode w), decode?_encode_append hw] at hread
  cases hread
  rfl

theorem utf8Size_of_mem_alphabet {c : Char} (h : c ∈ alphabet) : c.utf8Size = 1 := by
  have hall : alphabet.all (·.utf8Size == 1) = true := rfl
  exact beq_iff_eq.mp (List.all_eq_true.mp hall c h)

/-- Digits take one byte each. -/
theorem utf8ByteSize_ofList {digits : List Char} (h : ∀ c ∈ digits, c ∈ alphabet) :
    (String.ofList digits).utf8ByteSize = digits.length := by
  rw [String.utf8ByteSize_ofList]
  induction digits with
  | nil => rfl
  | cons c rest ih =>
    obtain ⟨hc, hrest⟩ := List.forall_mem_cons.mp h
    rw [String.utf8Len_cons, utf8Size_of_mem_alphabet hc, ih hrest, List.length_cons]

/-- Integers are written as a prefix code: up to thirteen digits, which are read back together with
their number of bytes whatever follows them, and no code is the beginning of another one. -/
theorem encode_prefixCode :
    (∀ v : Int, v.natAbs < 2 ^ 62 →
      (∀ rest, decode? (encode v ++ rest) = some (v, (String.ofList (encode v)).utf8ByteSize)) ∧
      (encode v).length ≤ 13 ∧ ∀ c ∈ encode v, c ∈ alphabet) ∧
    ∀ v w : Int, v.natAbs < 2 ^ 62 → w.natAbs < 2 ^ 62 → (encode v <+: encode w ↔ v = w) := by
  refine ⟨?_, ?_⟩
  · intro v hv
    have halphabet : ∀ c ∈ encode v, c ∈ alphabet := fun c hc => mem_alphabet_of_mem_encode hc
    refine ⟨?_, length_encode_le hv, halphabet⟩
    intro rest
    rw [decode?_encode_append hv, utf8ByteSize_ofList halphabet]
  · intro v w hv hw
    constructor
    · exact eq_of_encode_isPrefix hv hw
    · rintro rfl
      exact List.prefix_rfl

/-- The greatest integer takes thirteen digits, and it is read although no digit follows. -/
theorem encode_prefixCode_greatest :
    let greatest : Int := 2 ^ 62 - 1
    greatest.natAbs < 2 ^ 62 ∧ (-1 : Int).natAbs < 2 ^ 62 ∧
      encode greatest = "+///////////H".toList ∧
      decode? (encode greatest ++ ['!']) = some (greatest, 13) ∧
      ¬ encode (-1) <+: encode greatest := by
  intro greatest
  have hgreatest : greatest.natAbs < 2 ^ 62 := by decide
  have hother : (-1 : Int).natAbs < 2 ^ 62 := by decide
  have hcode : encode greatest = "+///////////H".toList := by cbv
  obtain ⟨hwritten, hbegins⟩ := encode_prefixCode
  obtain ⟨hread, -, halphabet⟩ := hwritten greatest hgreatest
  refine ⟨hgreatest, hother, hcode, ?_, ?_⟩
  · rw [hread, utf8ByteSize_ofList halphabet, hcode]
    rfl
  · rw [hbegins _ _ hother hgreatest]
    decide

/-! ## Digits -/

/-- The character is a digit that another one follows. -/
def continues (c : Char) : Bool := (digitValue? c).any (32 ≤ ·)

/-- The character is a digit that ends a quantity. -/
def ends (c : Char) : Bool := (digitValue? c).any (· < 32)

/-- The five bits that a digit holds. -/
def payload (c : Char) : Nat := (digitValue? c).getD 0 % 32

theorem payload_lt (c : Char) : payload c < 32 := Nat.mod_lt _ (by omega)

theorem digitValue?_lt {c : Char} {d : Nat} (h : digitValue? c = some d) : d < 64 := by
  obtain ⟨hlt, -⟩ := List.idxOf?_eq_some_iff.mp h
  exact hlt

theorem digit_of_digitValue? {c : Char} {d : Nat} (h : digitValue? c = some d) : digit d = c := by
  obtain ⟨hlt, hget, -⟩ := List.idxOf?_eq_some_iff.mp h
  rw [digit, List.getD_eq_getElem?_getD, List.getElem?_eq_getElem hlt]
  exact hget

theorem mem_alphabet_of_digitValue? {c : Char} {d : Nat} (h : digitValue? c = some d) :
    c ∈ alphabet := by
  rw [← digit_of_digitValue? h]
  exact digit_mem_alphabet d (digitValue?_lt h)

theorem digitValue?_of_continues {c : Char} (h : continues c = true) :
    digitValue? c = some (payload c + 32) := by
  obtain ⟨d, hd, hle⟩ := (Option.any_eq_true _ _).mp h
  have hlt := digitValue?_lt hd
  have hle : 32 ≤ d := by simpa using hle
  rw [payload, hd, Option.getD_some, Option.some_inj]
  omega

theorem digitValue?_of_ends {c : Char} (h : ends c = true) : digitValue? c = some (payload c) := by
  obtain ⟨d, hd, hlt⟩ := (Option.any_eq_true _ _).mp h
  have hlt : d < 32 := by simpa using hlt
  rw [payload, hd, Option.getD_some, Nat.mod_eq_of_lt hlt]

/-! ## Quantities -/

/-- All digits continue but the last. -/
def IsQuantity (digits : List Char) : Prop :=
  ∃ front last, digits = front ++ [last] ∧ (∀ c ∈ front, continues c = true) ∧ ends last = true

/-- The natural number that digits denote, the lowest first. -/
def sum (digits : List Char) : Nat := Nat.ofDigits 32 (digits.map payload)

/-- The number without its lowest bit. -/
def magnitude (digits : List Char) : Nat := sum digits / 2

/-- The integer that digits denote: the lowest bit is the sign. -/
def denoted (digits : List Char) : Int :=
  if sum digits % 2 = 1 then -(magnitude digits : Int) else magnitude digits

/-- The last group is not zero, unless there is no other, and it is not the zero with a sign. -/
structure IsCanonical (digits : List Char) : Prop where
  top : digits.length = 1 ∨ digits.getLast?.map payload ≠ some 0
  sign : sum digits ≠ 1

theorem not_isQuantity_nil : ¬ IsQuantity [] := by
  rintro ⟨front, last, h, -⟩
  simp at h

theorem isQuantity_cons_iff {c : Char} {rest : List Char} :
    IsQuantity (c :: rest) ↔
      ends c = true ∧ rest = [] ∨ continues c = true ∧ IsQuantity rest := by
  constructor
  · rintro ⟨front, last, heq, hfront, hlast⟩
    cases front with
    | nil =>
      cases heq
      exact .inl ⟨hlast, rfl⟩
    | cons first front =>
      cases heq
      obtain ⟨hfirst, hfront⟩ := List.forall_mem_cons.mp hfront
      exact .inr ⟨hfirst, front, last, rfl, hfront, hlast⟩
  · rintro (⟨hc, rfl⟩ | ⟨hc, front, last, rfl, hfront, hlast⟩)
    · exact ⟨[], c, rfl, by simp, hc⟩
    · exact ⟨c :: front, last, rfl, List.forall_mem_cons.mpr ⟨hc, hfront⟩, hlast⟩

theorem IsQuantity.last {c : Char} (h : ends c = true) : IsQuantity [c] :=
  isQuantity_cons_iff.mpr (.inl ⟨h, rfl⟩)

theorem IsQuantity.cons {c : Char} {rest : List Char} (hc : continues c = true)
    (h : IsQuantity rest) : IsQuantity (c :: rest) :=
  isQuantity_cons_iff.mpr (.inr ⟨hc, h⟩)

/-- Along the digits of a quantity, from the last to the first. -/
theorem IsQuantity.induction {motive : ∀ digits, IsQuantity digits → Prop}
    (last : ∀ c (hc : ends c = true), motive [c] (.last hc))
    (cons : ∀ c rest (hc : continues c = true) (hrest : IsQuantity rest),
      motive rest hrest → motive (c :: rest) (.cons hc hrest))
    {digits : List Char} (h : IsQuantity digits) : motive digits h := by
  induction digits with
  | nil => exact absurd h not_isQuantity_nil
  | cons c rest ih =>
    rcases isQuantity_cons_iff.mp h with ⟨hc, rfl⟩ | ⟨hc, hrest⟩
    · exact last c hc
    · exact cons c rest hc hrest (ih hrest)

theorem IsQuantity.mem_alphabet {digits : List Char} (h : IsQuantity digits) :
    ∀ c ∈ digits, c ∈ alphabet := by
  obtain ⟨front, last, rfl, hfront, hlast⟩ := h
  refine List.forall_mem_append.mpr ⟨?_, ?_⟩
  · exact fun c hc => mem_alphabet_of_digitValue? (digitValue?_of_continues (hfront c hc))
  · exact List.forall_mem_singleton.mpr (mem_alphabet_of_digitValue? (digitValue?_of_ends hlast))

/-! ## What the reader accepts -/

theorem groups?_of_ends {c : Char} (h : ends c = true) (limit : Nat) (rest : List Char) :
    groups? (limit + 1) (c :: rest) = some [payload c] := by
  rw [groups?, digitValue?_of_ends h]
  simp [payload_lt]

theorem groups?_of_continues {c : Char} (h : continues c = true) (limit : Nat) (rest : List Char) :
    groups? (limit + 1) (c :: rest) = (groups? limit rest).map (payload c :: ·) := by
  rw [groups?, digitValue?_of_continues h]
  simp

theorem groups?_of_foreign {c : Char} (hends : ends c = false) (hcontinues : continues c = false)
    (limit : Nat) (rest : List Char) : groups? (limit + 1) (c :: rest) = none := by
  rw [groups?]
  cases h : digitValue? c with
  | none => rfl
  | some d =>
    -- a digit does the one or the other
    simp [ends, continues, h] at hends hcontinues
    omega

/-- The groups that are read are those of a quantity at the front of the text. -/
theorem groups?_eq_some_iff {limit : Nat} {text : List Char} {groups : List Nat} :
    groups? limit text = some groups ↔ ∃ digits rest, text = digits ++ rest ∧
      IsQuantity digits ∧ digits.length ≤ limit ∧ digits.map payload = groups := by
  constructor
  · intro h
    induction limit generalizing text groups with
    | zero => cases h
    | succ limit ih =>
      cases text with
      | nil => cases h
      | cons c rest =>
        cases hends : ends c with
        | true =>
          rw [groups?_of_ends hends] at h
          cases h
          exact ⟨[c], rest, rfl, .last hends, by simp, rfl⟩
        | false =>
          cases hcontinues : continues c with
          | false =>
            rw [groups?_of_foreign hends hcontinues] at h
            cases h
          | true =>
            rw [groups?_of_continues hcontinues] at h
            obtain ⟨later, hlater, rfl⟩ := Option.map_eq_some_iff.mp h
            obtain ⟨digits, rest, rfl, hquantity, hlength, rfl⟩ := ih hlater
            exact ⟨c :: digits, rest, rfl, .cons hcontinues hquantity,
              Nat.succ_le_succ hlength, rfl⟩
  · rintro ⟨digits, rest, rfl, hquantity, hlength, rfl⟩
    induction hquantity using IsQuantity.induction generalizing limit with
    | last c hc =>
      obtain ⟨limit, rfl⟩ := Nat.exists_eq_add_of_le' hlength
      exact groups?_of_ends hc limit rest
    | cons c digits hc _ ih =>
      cases limit with
      | zero => cases hlength
      | succ limit =>
        rw [List.cons_append, groups?_of_continues hc, ih (Nat.le_of_succ_le_succ hlength)]
        rfl

/-! ## What is written -/

theorem sum_cons (c : Char) (rest : List Char) : sum (c :: rest) = payload c + 32 * sum rest := by
  rw [sum, List.map_cons, Nat.ofDigits_cons, sum]

theorem ofGroups_map_payload (digits : List Char) : ofGroups (digits.map payload) = sum digits := by
  induction digits with
  | nil => rfl
  | cons c rest ih => rw [List.map_cons, ofGroups, ih, sum_cons]

theorem sum_lt (digits : List Char) : sum digits < 32 ^ digits.length := by
  have hlt : ∀ group ∈ digits.map payload, group < 32 :=
    List.forall_mem_map.mpr fun c _ => payload_lt c
  rw [← digits.length_map payload]
  exact Nat.ofDigits_lt_base_pow_length (by omega) hlt

/-- If the sum is zero, so is the group on top. -/
theorem map_getLast?_of_sum_eq_zero {digits : List Char} (hne : digits ≠ []) (h : sum digits = 0) :
    digits.getLast?.map payload = some 0 := by
  have hzero : ∀ group ∈ digits.map payload, group = 0 :=
    fun group hgroup => Nat.digits_zero_of_eq_zero (by omega) h group hgroup
  rw [List.getLast?_eq_some_getLast hne, Option.map_some,
    hzero _ (List.mem_map_of_mem (List.getLast_mem hne))]

/-- The digits of the sum are those of the quantity, unless a zero is on top of it. -/
theorem encodeNat_sum_eq_iff {digits : List Char} (h : IsQuantity digits) :
    encodeNat (sum digits) = digits ↔
      digits.length = 1 ∨ digits.getLast?.map payload ≠ some 0 := by
  induction h using IsQuantity.induction with
  | last c hc =>
    have hsum : sum [c] = payload c := by simp [sum]
    rw [hsum, encodeNat, if_pos (payload_lt c), digit_of_digitValue? (digitValue?_of_ends hc)]
    simp
  | cons c rest hc hrest ih =>
    have hne : rest ≠ [] := by
      rintro rfl
      exact not_isQuantity_nil hrest
    have hlast : (c :: rest).getLast? = rest.getLast? := List.getLast?_cons_of_ne_nil hne
    have hpayload := payload_lt c
    rw [sum_cons, encodeNat, hlast]
    split
    next hsmall =>
      -- a single digit is written, because all the groups behind the first are zero
      have htop := map_getLast?_of_sum_eq_zero hne (by omega)
      have hwritten : [digit (payload c + 32 * sum rest)] ≠ c :: rest := by
        intro heq
        exact hne (List.cons.inj heq).2.symm
      simp [hwritten, hne, htop]
    next hlarge =>
      have hdigit : (payload c + 32 * sum rest) % 32 + 32 = payload c + 32 := by omega
      have hdiv : (payload c + 32 * sum rest) / 32 = sum rest := by omega
      rw [hdigit, hdiv, digit_of_digitValue? (digitValue?_of_continues hc), List.cons.injEq, ih]
      -- a single digit behind the first is not zero either
      have hsingle : rest.length = 1 → rest.getLast?.map payload ≠ some 0 := by
        intro hone
        obtain ⟨d, rfl⟩ := List.length_eq_one_iff.mp hone
        simp [sum] at hlarge ⊢
        omega
      simp only [List.length_cons, Nat.add_eq_right, List.length_eq_zero_iff, hne, true_and,
        false_or]
      exact or_iff_right_of_imp hsingle

theorem foldSign_denoted {digits : List Char} (h : sum digits ≠ 1) :
    foldSign (denoted digits) = sum digits := by
  rw [foldSign, denoted, magnitude]
  split <;> split <;> omega

/-- The sign before nothing is not written. -/
theorem encode_denoted_of_sum_eq_one {digits : List Char} (h : sum digits = 1) :
    encode (denoted digits) = ['A'] := by
  have hdenoted : denoted digits = 0 := by simp [denoted, magnitude, h]
  rw [hdenoted, encode, encodeNat]
  rfl

theorem length_encode_denoted_le {digits : List Char} (h : IsQuantity digits) :
    (encode (denoted digits)).length ≤ digits.length := by
  have hpos : 0 < digits.length := by
    obtain ⟨front, last, rfl, -⟩ := h
    simp
  by_cases hsign : sum digits = 1
  · rw [encode_denoted_of_sum_eq_one hsign]
    exact hpos
  · obtain ⟨count, hcount⟩ := Nat.exists_eq_add_of_le' hpos
    rw [encode, foldSign_denoted hsign, hcount]
    exact length_encodeNat_le (hcount ▸ sum_lt digits)

/-- Exactly the canonical quantities are written. -/
theorem encode_denoted_eq_iff {digits : List Char} (h : IsQuantity digits) :
    encode (denoted digits) = digits ↔ IsCanonical digits := by
  by_cases hsign : sum digits = 1
  · have hother : ['A'] ≠ digits := by
      rintro rfl
      exact absurd hsign (by decide)
    rw [encode_denoted_of_sum_eq_one hsign]
    exact ⟨fun heq => absurd heq hother, fun hcanonical => absurd hsign hcanonical.sign⟩
  · rw [encode, foldSign_denoted hsign, encodeNat_sum_eq_iff h]
    exact ⟨fun htop => ⟨htop, hsign⟩, IsCanonical.top⟩

/-! ## The reader with a word -/

/-- The word with some groups added, when `count` others have been added before them. -/
def accumulate (count : Nat) (word : BitVec 64) : List Nat → BitVec 64
  | [] => word
  | group :: rest => accumulate (count + 1) (word + BitVec.ofNat 64 group <<< (5 * count)) rest

/-- The reader as a loop: `count` digits have been read, and `word` holds their groups. -/
def readDigits? (count : Nat) (word : BitVec 64) : List Char → Option (BitVec 64 × Nat)
  | [] => none
  | c :: rest =>
    match digitValue? c with
    | none => none
    | some d =>
      let word := word + BitVec.ofNat 64 (d % 32) <<< (5 * count)
      if d < 32 then some (word, count + 1)
      else if 60 < 5 * (count + 1) then none
      else readDigits? (count + 1) word rest

/-- The integer that a word stands for: the lowest bit is the sign. -/
def signed (word : BitVec 64) : BitVec 64 :=
  if word &&& 1 = 1 then -word.sshiftRight 1 else word.sshiftRight 1

/-- The loop adds up the groups of the quantity at the front of the text. -/
theorem readDigits?_eq (count limit : Nat) (h : count + (limit + 1) = maxDigits) (word : BitVec 64)
    (text : List Char) : readDigits? count word text = (groups? (limit + 1) text).map fun groups =>
      (accumulate count word groups, count + groups.length) := by
  induction text generalizing count limit word with
  | nil => rfl
  | cons c rest ih =>
    rw [readDigits?, groups?]
    cases hd : digitValue? c with
    | none => rfl
    | some d =>
      by_cases hends : d < 32
      · simp [hends, accumulate, Nat.mod_eq_of_lt hends]
      · have hlt := digitValue?_lt hd
        have hgroup : d % 32 = d - 32 := by omega
        rw [maxDigits] at h
        simp only [hends, if_false, hgroup, Option.map_map]
        cases limit with
        | zero =>
          -- this was the last digit that there may be
          rw [if_pos (by omega)]
          rfl
        | succ limit =>
          rw [if_neg (by omega), ih (count + 1) limit (by rw [maxDigits]; omega)]
          congr 1
          funext groups
          simp [accumulate, Nat.add_comm, Nat.add_left_comm]

theorem ofNat_shiftLeft (group count : Nat) :
    BitVec.ofNat 64 group <<< (5 * count) = BitVec.ofNat 64 (group * 32 ^ count) := by
  apply BitVec.eq_of_toNat_eq
  simp [Nat.shiftLeft_eq, pow_mul]

theorem mul_ofGroups_cons (count group : Nat) (rest : List Nat) :
    32 ^ count * ofGroups (group :: rest) =
      group * 32 ^ count + 32 ^ (count + 1) * ofGroups rest := by
  rw [ofGroups, pow_succ]
  ring

/-- The loop adds the number that the groups denote, as far as a word holds it. -/
theorem accumulate_eq (count : Nat) (word : BitVec 64) (groups : List Nat) :
    accumulate count word groups = word + BitVec.ofNat 64 (32 ^ count * ofGroups groups) := by
  induction groups generalizing count word with
  | nil => simp [accumulate, ofGroups]
  | cons group rest ih =>
    rw [accumulate, ih, ofNat_shiftLeft, mul_ofGroups_cons, BitVec.ofNat_add, BitVec.add_assoc]

theorem toInt_signed (n : Nat) : (signed (BitVec.ofNat 64 n)).toInt = unfoldSign n := by
  have hsign : BitVec.ofNat 64 n &&& 1 = 1 ↔ n % 2 = 1 := by
    rw [← BitVec.toNat_inj, BitVec.toNat_and]
    simp [Nat.and_one_is_mod]
  have hmagnitude : ((BitVec.ofNat 64 n).sshiftRight 1).toInt =
      Int.bmod n (Nat.pow 2 64) / 2 := by
    rw [BitVec.toInt_sshiftRight, BitVec.toInt_ofNat', Int.shiftRight_eq_div_pow]
    rfl
  have hlower : -(2 ^ 63) ≤ Int.bmod n (Nat.pow 2 64) := Int.le_bmod (by norm_num)
  have hupper : Int.bmod n (Nat.pow 2 64) < 2 ^ 63 := Int.bmod_lt (by norm_num)
  rw [signed, unfoldSign]
  simp only [hsign]
  split
  · -- half of a word is never the least integer, so it can be negated
    rw [BitVec.toInt_neg, hmagnitude]
    exact Int.bmod_eq_of_le (by omega) (by omega)
  · exact hmagnitude

/-- What is read is what the loop reads. -/
theorem decode?_eq_readDigits? (text : List Char) :
    decode? text =
      (readDigits? 0 0 text).map fun (word, count) => ((signed word).toInt, count) := by
  rw [readDigits?_eq 0 12 rfl 0 text, decode?, Option.map_map]
  congr 1
  funext groups
  simp [accumulate_eq, toInt_signed]

/-! ### Overflow -/

/-- No group loses bits when it is shifted into its place, and no sum leaves the signed words. -/
def NeverOverflows (count : Nat) (word : BitVec 64) : List Nat → Prop
  | [] => True
  | group :: rest =>
    let term := BitVec.ofNat 64 group <<< (5 * count)
    term.toInt = group * 32 ^ count ∧ BitVec.saddOverflow word term = false ∧
      NeverOverflows (count + 1) (word + term) rest

theorem neverOverflows {count : Nat} {word : BitVec 64} {groups : List Nat} {sum : Nat}
    (hword : word.toInt = sum) (h : sum + 32 ^ count * ofGroups groups < 2 ^ 63) :
    NeverOverflows count word groups := by
  induction groups generalizing count word sum with
  | nil => trivial
  | cons group rest ih =>
    rw [mul_ofGroups_cons] at h
    have hterm : (BitVec.ofNat 64 group <<< (5 * count)).toInt = (group * 32 ^ count : Nat) := by
      rw [ofNat_shiftLeft, BitVec.toInt_ofNat']
      exact Int.bmod_eq_of_le (by omega) (by omega)
    have hnext : (word + BitVec.ofNat 64 group <<< (5 * count)).toInt =
        (sum + group * 32 ^ count : Nat) := by
      rw [BitVec.toInt_add, hword, hterm, ← Nat.cast_add]
      exact Int.bmod_eq_of_le (by omega) (by omega)
    refine ⟨by simp [hterm], ?_, ih hnext (by omega)⟩
    simp only [BitVec.saddOverflow, hword, hterm, Bool.or_eq_false_iff, decide_eq_false_iff_not]
    omega

/-! ## The grammar -/

theorem decode?_eq_some_iff {text : List Char} {v : Int} {count : Nat} :
    decode? text = some (v, count) ↔ ∃ digits rest, text = digits ++ rest ∧ IsQuantity digits ∧
      digits.length ≤ maxDigits ∧ unfoldSign (sum digits) = v ∧ digits.length = count := by
  rw [decode?, Option.map_eq_some_iff]
  constructor
  · rintro ⟨groups, hgroups, heq⟩
    cases heq
    obtain ⟨digits, rest, rfl, hquantity, hlength, rfl⟩ := groups?_eq_some_iff.mp hgroups
    exact ⟨digits, rest, rfl, hquantity, hlength, by rw [ofGroups_map_payload], by simp⟩
  · rintro ⟨digits, rest, rfl, hquantity, hlength, rfl, rfl⟩
    refine ⟨digits.map payload, ?_, by rw [ofGroups_map_payload, List.length_map]⟩
    exact groups?_eq_some_iff.mpr ⟨digits, rest, rfl, hquantity, hlength, rfl⟩

theorem unfoldSign_sum {digits : List Char} (h : magnitude digits < 2 ^ 62) :
    unfoldSign (sum digits) = denoted digits := by
  rw [magnitude] at h
  have hbmod : Int.bmod (sum digits) (Nat.pow 2 64) = sum digits :=
    Int.bmod_eq_of_le (by norm_num) (by norm_num; omega)
  rw [unfoldSign, hbmod, denoted, magnitude]
  split <;> omega

/-- The quantities of up to thirteen digits are read, together with their number of bytes, and
nothing else is. One whose magnitude is below `2 ^ 62` is read as the integer that it denotes, and
no sum of its groups overflows on the way. That integer is written with no more digits, and with the
same ones exactly if the quantity is canonical. -/
theorem decode?_grammar (text : List Char) :
    decode? text =
      (readDigits? 0 0 text).map (fun (word, count) => ((signed word).toInt, count)) ∧
    (∀ count, (∃ v, decode? text = some (v, count)) ↔ ∃ digits rest, text = digits ++ rest ∧
      IsQuantity digits ∧ digits.length ≤ 13 ∧ (String.ofList digits).utf8ByteSize = count) ∧
    (decode? text = none ↔
      ∀ digits rest, text = digits ++ rest → IsQuantity digits → 13 < digits.length) ∧
    ∀ digits rest, text = digits ++ rest → IsQuantity digits → digits.length ≤ 13 →
      magnitude digits < 2 ^ 62 →
        decode? text = some (denoted digits, digits.length) ∧
        NeverOverflows 0 0 (digits.map payload) ∧
        (encode (denoted digits)).length ≤ digits.length ∧
        (encode (denoted digits) = digits ↔ IsCanonical digits) := by
  refine ⟨decode?_eq_readDigits? text, ?_, ?_, ?_⟩
  · intro count
    constructor
    · rintro ⟨v, h⟩
      obtain ⟨digits, rest, rfl, hquantity, hlength, -, rfl⟩ := decode?_eq_some_iff.mp h
      exact ⟨digits, rest, rfl, hquantity, hlength, utf8ByteSize_ofList hquantity.mem_alphabet⟩
    · rintro ⟨digits, rest, rfl, hquantity, hlength, rfl⟩
      rw [utf8ByteSize_ofList hquantity.mem_alphabet]
      exact ⟨_, decode?_eq_some_iff.mpr ⟨digits, rest, rfl, hquantity, hlength, rfl, rfl⟩⟩
  · constructor
    · intro h digits rest htext hquantity
      by_contra hle
      have hread := decode?_eq_some_iff.mpr
        ⟨digits, rest, htext, hquantity, Nat.not_lt.mp hle, rfl, rfl⟩
      rw [h] at hread
      cases hread
    · intro h
      rw [Option.eq_none_iff_forall_ne_some]
      rintro ⟨v, count⟩ hread
      obtain ⟨digits, rest, htext, hquantity, hle, -, -⟩ := decode?_eq_some_iff.mp hread
      exact absurd (h digits rest htext hquantity) (Nat.not_lt.mpr hle)
  · intro digits rest htext hquantity hle hmagnitude
    refine ⟨?_, ?_, length_encode_denoted_le hquantity, encode_denoted_eq_iff hquantity⟩
    · exact decode?_eq_some_iff.mpr
        ⟨digits, rest, htext, hquantity, hle, unfoldSign_sum hmagnitude, rfl⟩
    · have hsum : sum digits < 2 ^ 63 := by
        rw [magnitude] at hmagnitude
        omega
      have hempty : (0 : BitVec 64).toInt = (0 : Nat) := rfl
      refine neverOverflows hempty ?_
      simpa [ofGroups_map_payload] using hsum

/-- The least integer that is read takes all thirteen digits. The quantity behind it is a one with
a zero on top, which is the sign before nothing as well; it is read as zero, but never written. -/
theorem decode?_grammar_longest :
    let least := "////////////H".toList
    let nothing := "hA".toList
    IsQuantity least ∧ least.length ≤ 13 ∧ magnitude least < 2 ^ 62 ∧
      decode? (least ++ nothing) = some (-(2 ^ 62 - 1), 13) ∧ encode (-(2 ^ 62 - 1)) = least ∧
    IsQuantity nothing ∧ nothing.length ≤ 13 ∧ magnitude nothing < 2 ^ 62 ∧
      decode? nothing = some (0, 2) ∧ encode 0 ≠ nothing := by
  intro least nothing
  have hleast : IsQuantity least := ⟨"////////////".toList, 'H', rfl, List.all_eq_true.mp rfl, rfl⟩
  have hnothing : IsQuantity nothing := ⟨['h'], 'A', rfl, List.all_eq_true.mp rfl, rfl⟩
  have hleastSum : sum least = 2 ^ 63 - 1 := by
    rw [← ofGroups_map_payload]
    rfl
  have hleastSmall : magnitude least < 2 ^ 62 := by simp [magnitude, hleastSum]
  have hnothingSmall : magnitude nothing < 2 ^ 62 := by decide
  have hleastDenoted : denoted least = -(2 ^ 62 - 1) := by simp [denoted, magnitude, hleastSum]
  have hnothingDenoted : denoted nothing = 0 := by decide
  have hcanonical : IsCanonical least := ⟨.inr (by decide), by decide⟩
  have hsign : ¬ IsCanonical nothing := fun h => h.sign (by decide)
  obtain ⟨-, -, -, hread⟩ := decode?_grammar (least ++ nothing)
  obtain ⟨hvalue, -, -, hcode⟩ := hread least nothing rfl hleast (by decide) hleastSmall
  obtain ⟨-, -, -, hreadNothing⟩ := decode?_grammar nothing
  obtain ⟨hzero, -, -, hother⟩ :=
    hreadNothing nothing [] (List.append_nil _).symm hnothing (by decide) hnothingSmall
  rw [hleastDenoted] at hvalue hcode
  rw [hnothingDenoted] at hzero hother
  exact ⟨hleast, by decide, hleastSmall, hvalue, hcode.mpr hcanonical, hnothing, by decide,
    hnothingSmall, hzero, fun h => hsign (hother.mp h)⟩

end Downlevel.Vlq
