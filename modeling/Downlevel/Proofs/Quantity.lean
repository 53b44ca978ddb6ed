import Mathlib.Tactic
import Downlevel.SourceMap.Vlq

/-!
# Reading back variable-length quantities

A quantity ends with its own last digit, so it is read back from any text that it stands in front
of (`decode?_encode_append`). Thirteen digits are enough for every magnitude below `2 ^ 62`.
-/

namespace Downlevel.Vlq

/-! ### Digits -/

theorem digitValue?_digit : ∀ d < 64, digitValue? (digit d) = some d := by decide

theorem digit_mem_alphabet : ∀ d < 64, digit d ∈ alphabet := by decide

theorem mem_alphabet_of_mem_encodeNat (n : Nat) : ∀ c ∈ encodeNat n, c ∈ alphabet := by
  induction n using Nat.strongRecOn with
  | ind n ih =>
    intro c hc
    rw [encodeNat] at hc
    split at hc
    · next hn =>
      rw [List.mem_singleton.mp hc]
      exact digit_mem_alphabet n (by omega)
    · next hn =>
      rcases List.mem_cons.mp hc with rfl | hc
      · exact digit_mem_alphabet _ (by omega)
      · exact ih (n / 32) (by omega) c hc

/-- Only digits are written. -/
theorem mem_alphabet_of_mem_encode {v : Int} {c : Char} (h : c ∈ encode v) : c ∈ alphabet :=
  mem_alphabet_of_mem_encodeNat _ c h

theorem encodeNat_ne_nil (n : Nat) : encodeNat n ≠ [] := by
  rw [encodeNat]
  split <;> simp

theorem encode_ne_nil (v : Int) : encode v ≠ [] := encodeNat_ne_nil _

/-! ### Groups -/

/-- The groups of a number are read back from its digits, if they may be that many. -/
theorem groups?_encodeNat_append (limit n : Nat) (rest : List Char) (h : n < 32 ^ (limit + 1)) :
    ∃ groups, groups? (limit + 1) (encodeNat n ++ rest) = some groups ∧ ofGroups groups = n ∧
      groups.length = (encodeNat n).length := by
  induction limit generalizing n with
  | zero =>
    have hn : n < 32 := by simpa using h
    rw [encodeNat, if_pos hn]
    refine ⟨[n], ?_, by simp [ofGroups], rfl⟩
    simp [groups?, digitValue?_digit n (by omega), hn]
  | succ limit ih =>
    rw [encodeNat]
    split
    · next hn =>
      refine ⟨[n], ?_, by simp [ofGroups], rfl⟩
      simp [groups?, digitValue?_digit n (by omega), hn]
    · next hn =>
      have hrest : n / 32 < 32 ^ (limit + 1) := by
        rw [Nat.div_lt_iff_lt_mul (by omega), ← pow_succ]
        exact h
      obtain ⟨groups, hread, hsum, hlength⟩ := ih (n / 32) hrest
      refine ⟨n % 32 :: groups, ?_, ?_, by simp [hlength]⟩
      · rw [List.cons_append, groups?, digitValue?_digit _ (by omega)]
        have hcontinues : ¬ n % 32 + 32 < 32 := by omega
        simp [hcontinues, hread]
      · rw [ofGroups, hsum]
        omega

/-! ### Signs -/

theorem foldSign_lt {v : Int} (h : v.natAbs < 2 ^ 62) : foldSign v < 2 ^ 63 := by
  unfold foldSign
  split <;> omega

theorem unfoldSign_foldSign {v : Int} (h : v.natAbs < 2 ^ 62) : unfoldSign (foldSign v) = v := by
  have hbmod : Int.bmod (foldSign v) (Nat.pow 2 64) = foldSign v :=
    Int.bmod_eq_of_le (by norm_num) (by have := foldSign_lt h; norm_num; omega)
  rw [unfoldSign, hbmod]
  unfold foldSign
  split <;> split <;> omega

/-! ### Quantities -/

/-- A quantity is read back together with the number of its digits, whatever follows it. -/
theorem decode?_encode_append {v : Int} (h : v.natAbs < 2 ^ 62) (rest : List Char) :
    decode? (encode v ++ rest) = some (v, (encode v).length) := by
  have hbound : foldSign v < 32 ^ (12 + 1) := lt_of_lt_of_le (foldSign_lt h) (by norm_num)
  obtain ⟨groups, hread, hsum, hlength⟩ := groups?_encodeNat_append 12 (foldSign v) rest hbound
  have hread : groups? maxDigits (encode v ++ rest) = some groups := hread
  rw [decode?, hread, Option.map_some, hsum, unfoldSign_foldSign h, hlength]
  rfl

/-- What is read has digits. -/
theorem length_pos_of_groups? {limit : Nat} {text : List Char} {groups : List Nat}
    (h : groups? limit text = some groups) : 0 < groups.length := by
  cases limit with
  | zero => simp [groups?] at h
  | succ limit =>
    cases text with
    | nil => simp [groups?] at h
    | cons c rest =>
      rw [groups?] at h
      split at h
      · cases h
      · split at h
        · cases h
          simp
        · obtain ⟨later, -, rfl⟩ := Option.map_eq_some_iff.mp h
          simp

theorem pos_of_decode? {text : List Char} {v : Int} {count : Nat}
    (h : decode? text = some (v, count)) : 0 < count := by
  obtain ⟨groups, hgroups, heq⟩ := Option.map_eq_some_iff.mp h
  cases heq
  exact length_pos_of_groups? hgroups

end Downlevel.Vlq
