import Mathlib.Tactic
import Downlevel.SourceMap.Json

/-!
# Reading back what was written in JSON

A number does not end by itself, but what stands behind a value in an array or an object is no part
of a number. So a reader takes a value off its text in front of any such rest (`Reads`), and what is
read piece by piece is read as a whole.

Main statement: every source map is read back from its own text (`SourceMap.ofJson_toJson`).
-/

namespace Downlevel.Json

/-- What may stand behind a value that is a part of another one. -/
def isDelimiter (c : Char) : Bool := c == ',' || c == ']' || c == '\x7d'

/-- In front of a delimiter, the reader takes just the text and gives the value. -/
def Reads {α : Type} (read : Reader α) (text : List Char) (value : α) : Prop :=
  ∀ c rest, isDelimiter c = true → read (text ++ c :: rest) = .ok (value, c :: rest)

theorem isDelimiter_iff {c : Char} : isDelimiter c = true ↔ c = ',' ∨ c = ']' ∨ c = '\x7d' := by
  simp [isDelimiter, or_assoc]

theorem skipBlanks_cons {c : Char} (h : isBlank c = false) (s : List Char) :
    skipBlanks (c :: s) = c :: s := by
  rw [skipBlanks, List.dropWhile_cons_of_neg (by rw [h]; decide)]

/-! ## Strings -/

theorem hexValue?_hexDigit : ∀ n < 16, hexValue? (hexDigit n) = some n := by decide

/-- An escaped character is read as the first one of a string. -/
theorem readChars_escaped {s rest : List Char} {c : Char} (h : readEscape s = .ok (c, rest)) :
    readChars ('\\' :: s) = (readChars rest).map fun (chars, rest) => (c :: chars, rest) := by
  rw [readChars, if_neg (by decide), if_pos rfl]
  split
  next fault hfault =>
    rw [h] at hfault
    cases hfault
  next d behind hescape =>
    rw [h] at hescape
    cases hescape
    cases readChars rest <;> rfl

theorem readChars_plain {c : Char} (hquote : c ≠ '"') (hbackslash : c ≠ '\\')
    (hcontrol : 0x20 ≤ c.toNat) (rest : List Char) :
    readChars (c :: rest) = (readChars rest).map fun (chars, rest) => (c :: chars, rest) := by
  rw [readChars, if_neg hquote, if_neg hbackslash, if_neg (by omega)]
  cases readChars rest <;> rfl

/-- A control character is read from its four hexadecimal digits. -/
theorem readUnicode_control {c : Char} (h : c.toNat < 0x20) (rest : List Char) :
    readUnicode ('0' :: '0' :: hexDigit (c.toNat / 16) :: hexDigit (c.toNat % 16) :: rest) =
      .ok (c, rest) := by
  have hzero : hexValue? '0' = some 0 := by decide
  have hhigh := hexValue?_hexDigit (c.toNat / 16) (by omega)
  have hlow := hexValue?_hexDigit (c.toNat % 16) (by omega)
  have hvalue : ((0 * 16 + 0) * 16 + c.toNat / 16) * 16 + c.toNat % 16 = c.toNat := by omega
  have hhex : readHex ('0' :: '0' :: hexDigit (c.toNat / 16) :: hexDigit (c.toNat % 16) :: rest) =
      .ok (c.toNat, rest) := by
    simp only [readHex, hzero, hhigh, hlow, hvalue]
  have htrailing : ¬ (0xDC00 ≤ c.toNat ∧ c.toNat ≤ 0xDFFF) := by omega
  have hleading : ¬ (0xD800 ≤ c.toNat ∧ c.toNat ≤ 0xDBFF) := by omega
  simp [readUnicode, hhex, htrailing, hleading]

/-- However a character is written, it is read as the first one of a string. -/
theorem readChars_escape (c : Char) (rest : List Char) :
    readChars (escape c ++ rest) =
      (readChars rest).map fun (chars, rest) => (c :: chars, rest) := by
  have hof {n : Nat} (h : c.toNat = n) : c = Char.ofNat n := by rw [← h, Char.ofNat_toNat]
  unfold escape
  split
  next h => exact readChars_escaped (by rw [h]; rfl)
  split
  next h => exact readChars_escaped (by rw [h]; rfl)
  split
  next hquote hbackslash hplain => exact readChars_plain hquote hbackslash hplain rest
  split
  next h => exact readChars_escaped (by rw [hof h]; rfl)
  split
  next h => exact readChars_escaped (by rw [hof h]; rfl)
  split
  next h => exact readChars_escaped (by rw [hof h]; rfl)
  split
  next h => exact readChars_escaped (by rw [hof h]; rfl)
  split
  next h => exact readChars_escaped (by rw [hof h]; rfl)
  next hcontrol _ _ _ _ _ =>
    -- a control character without a letter of its own
    exact readChars_escaped (readUnicode_control (by omega) rest)

theorem readChars_escapes (s rest : List Char) :
    readChars (s.flatMap escape ++ '"' :: rest) = .ok (s, rest) := by
  induction s with
  | nil => rw [List.flatMap_nil, List.nil_append, readChars, if_pos rfl]
  | cons c s ih => rw [List.flatMap_cons, List.append_assoc, readChars_escape, ih]; rfl

/-- A string is read behind its opening quote. -/
theorem readQuoted_escapes (s : String) (rest : List Char) :
    readQuoted (s.toList.flatMap escape ++ '"' :: rest) = .ok (s, rest) := by
  rw [readQuoted, readChars_escapes]
  simp

theorem writeString_append (s : String) (rest : List Char) :
    writeString s ++ rest = '"' :: (s.toList.flatMap escape ++ '"' :: rest) := by
  simp [writeString]

/-- A string ends by itself. -/
theorem readString_writeString (s : String) (rest : List Char) :
    readString (writeString s ++ rest) = .ok (s, rest) := by
  rw [writeString_append]
  exact readQuoted_escapes s rest

theorem reads_string (s : String) : Reads readString (writeString s) s :=
  fun c rest _ => readString_writeString s (c :: rest)

/-- What is read may also be `null`, but no written string begins like that. -/
theorem reads_optional (s : String) : Reads (readOptional readString) (writeString s) (some s) := by
  intro c rest _
  have hread := readString_writeString s (c :: rest)
  rw [writeString_append] at hread ⊢
  show (readString _).map _ = _
  rw [hread]
  rfl

/-! ## Numbers -/

section

open Number

theorem writeNatural_eq (n : Nat) : writeNatural n = Nat.toDigits 10 n := by
  rw [writeNatural, Nat.toString_eq_ofList_toDigits, String.toList_ofList]

theorem isDigit_of_mem_toDigits {n : Nat} {c : Char} (h : c ∈ Nat.toDigits 10 n) :
    isDigit c = true :=
  Nat.isDigit_of_mem_toDigits (by decide) (by decide) h

/-- The first digit of a number that is not zero is not zero. -/
theorem toDigits_eq_cons (n : Nat) (hpos : 0 < n) :
    ∃ c digits, Nat.toDigits 10 n = c :: digits ∧ c ≠ '0' := by
  induction n using Nat.strongRecOn with
  | ind n ih =>
    by_cases hlt : n < 10
    · refine ⟨n.digitChar, [], Nat.toDigits_of_lt_base hlt, ?_⟩
      interval_cases n <;> decide
    · obtain ⟨c, digits, hdigits, hc⟩ := ih (n / 10) (by omega) (by omega)
      refine ⟨c, digits ++ [(n % 10).digitChar], ?_, hc⟩
      rw [Nat.toDigits_of_base_le (by decide) (by omega), hdigits]
      rfl

theorem le_ofDigitChars (digits : List Char) (k : Nat) : k ≤ Nat.ofDigitChars 10 digits k := by
  induction digits generalizing k with
  | nil => exact Nat.le_refl k
  | cons c digits ih =>
    rw [Nat.ofDigitChars_cons]
    exact Nat.le_trans (by omega) (ih _)

/-- No digit is left out of a number that fits in 64 bits. -/
theorem accumulate_eq (digits : List Char) (k : Nat) (h : Nat.ofDigitChars 10 digits k < 2 ^ 64) :
    accumulate k digits = (Nat.ofDigitChars 10 digits k, 0) := by
  induction digits generalizing k with
  | nil => rfl
  | cons c digits ih =>
    rw [Nat.ofDigitChars_cons] at h ⊢
    have hlonger : k * 10 + digitValue c = 10 * k + (c.toNat - '0'.toNat) := by
      rw [Nat.mul_comm k 10]
      rfl
    have hfits := Nat.lt_of_le_of_lt (le_ofDigitChars digits _) h
    rw [accumulate, hlonger]
    exact (if_pos hfits).trans (ih _ h)

/-- Digits end where a value may end. -/
theorem isDigit_of_isDelimiter {c : Char} (h : isDelimiter c = true) : isDigit c = false := by
  rcases isDelimiter_iff.1 h with rfl | rfl | rfl <;> decide

theorem readTail_delimiter {n : Nat} (h : n < 2 ^ 64) {c : Char} (hc : isDelimiter c = true)
    (rest : List Char) :
    readTail false (Nat.toDigits 10 n) (c :: rest) = .ok (natural n, c :: rest) := by
  have hdigits : accumulate 0 (Nat.toDigits 10 n) = (n, 0) := by
    have hvalue := accumulate_eq (Nat.toDigits 10 n) 0
    rw [Nat.ofDigitChars_ten_toDigits] at hvalue
    exact hvalue h
  rw [readTail, hdigits]
  rcases isDelimiter_iff.1 hc with rfl | rfl | rfl <;> rfl

/-- The digits of a number that does not begin with a zero are taken to their end. -/
theorem readUnsigned_digits {d : Char} {digits : List Char} (hd : d ≠ '0')
    (hall : ∀ a ∈ d :: digits, isDigit a = true) {c : Char} (hstop : isDigit c = false)
    (rest : List Char) :
    readUnsigned false (d :: digits ++ c :: rest) = readTail false (d :: digits) (c :: rest) := by
  have htake : (d :: digits ++ c :: rest).takeWhile isDigit = d :: digits := by
    rw [List.takeWhile_append_of_pos hall, List.takeWhile_cons_of_neg (by simp [hstop]),
      List.append_nil]
  have hdrop : (d :: digits ++ c :: rest).dropWhile isDigit = c :: rest := by
    rw [List.dropWhile_append_of_pos hall, List.dropWhile_cons_of_neg (by simp [hstop])]
  rw [List.cons_append] at htake hdrop ⊢
  rw [readUnsigned.eq_3 false d _ hd, if_pos (hall d List.mem_cons_self), htake, hdrop]

theorem readUnsigned_toDigits {n : Nat} (h : n < 2 ^ 64) {c : Char} (hc : isDelimiter c = true)
    (rest : List Char) :
    readUnsigned false (Nat.toDigits 10 n ++ c :: rest) = .ok (natural n, c :: rest) := by
  rw [← readTail_delimiter h hc rest]
  have hstop := isDigit_of_isDelimiter hc
  rcases Nat.eq_zero_or_pos n with rfl | hpos
  · show (if isDigit c = true then _ else _) = _
    rw [if_neg (by rw [hstop]; decide)]
    rfl
  · obtain ⟨d, digits, hdigits, hd⟩ := toDigits_eq_cons n hpos
    rw [hdigits]
    apply readUnsigned_digits hd _ hstop
    intro a ha
    exact isDigit_of_mem_toDigits (hdigits ▸ ha)

theorem read_digit {d : Char} (h : isDigit d = true) (s : List Char) :
    Number.read (d :: s) = readUnsigned false (d :: s) := by
  rw [Number.read]
  rintro rest' ⟨rfl, -⟩
  revert h
  decide

theorem isBlank_of_isDigit {c : Char} (h : isDigit c = true) : isBlank c = false := by
  by_contra hblank
  simp only [isBlank, Bool.not_eq_false, Bool.or_eq_true, beq_iff_eq] at hblank
  rcases hblank with ((rfl | rfl) | rfl) | rfl <;> revert h <;> decide

theorem toDigits_eq_digit (n : Nat) :
    ∃ c digits, Nat.toDigits 10 n = c :: digits ∧ isDigit c = true := by
  obtain ⟨c, digits, hdigits⟩ := List.exists_cons_of_ne_nil Nat.toDigits_ne_nil
  exact ⟨c, digits, hdigits, isDigit_of_mem_toDigits (hdigits ▸ List.mem_cons_self)⟩

/-- A number does not end by itself: the digits behind it would be taken for its own. -/
theorem reads_natural {n : Nat} (h : n < 2 ^ 32) : Reads readNatural (writeNatural n) n := by
  intro c rest hc
  have hread := readUnsigned_toDigits (by omega : n < 2 ^ 64) hc rest
  obtain ⟨d, digits, hdigits, hd⟩ := toDigits_eq_digit n
  rw [writeNatural_eq]
  rw [hdigits, List.cons_append] at hread ⊢
  rw [readNatural, skipBlanks_cons (isBlank_of_isDigit hd)]
  simp only [hd, Bool.or_true, if_true, read_digit hd, hread]
  exact if_pos h

end

/-! ## Arrays

An item is known from the end of an array by its first character. -/

/-- The text neither begins with a blank nor like the end of an array. -/
def Opens (text : List Char) : Prop :=
  ∃ c s, text = c :: s ∧ isBlank c = false ∧ c ≠ ']'

theorem opens_writeString (s : String) : Opens (writeString s) :=
  ⟨'"', _, rfl, by decide, by decide⟩

theorem commaSeparated_cons (item : List Char) (items : List (List Char)) :
    commaSeparated (item :: items) = item ++ items.flatMap (',' :: ·) := by
  induction items generalizing item with
  | nil => rw [commaSeparated, List.flatMap_nil, List.append_nil]
  | cons next items ih => rw [commaSeparated, ih, List.flatMap_cons, List.cons_append]

/-- There are not more items than characters. -/
theorem length_le_commaSeparated {items : List (List Char)} (h : ∀ item ∈ items, item ≠ []) :
    items.length ≤ (commaSeparated items).length := by
  induction items using commaSeparated.induct with
  | case1 => exact Nat.zero_le _
  | case2 item => exact List.length_pos_iff.2 (h item List.mem_cons_self)
  | case3 item next rest ih =>
    have hrest := ih fun item hitem => h item (List.mem_cons_of_mem _ hitem)
    simp only [commaSeparated, List.length_append, List.length_cons] at hrest ⊢
    omega

section

variable {α : Type} {read : Reader α} {write : α → List Char}

/-- The items of an array are read up to the end of the array. -/
theorem readItems_items {x : α} {l : List α} (hread : ∀ y ∈ x :: l, Reads read (write y) y)
    (hopens : ∀ y ∈ x :: l, Opens (write y)) (fuel : Nat) (hfuel : l.length < fuel)
    (rest : List Char) :
    readItems read fuel (write x ++ (l.map write).flatMap (',' :: ·) ++ ']' :: rest) =
      .ok (x :: l, rest) := by
  induction l generalizing x fuel with
  | nil =>
    obtain ⟨fuel, rfl⟩ := Nat.exists_eq_add_one_of_ne_zero (Nat.ne_zero_of_lt hfuel)
    have hx := hread x List.mem_cons_self ']' rest rfl
    rw [List.map_nil, List.flatMap_nil, List.append_nil, readItems, hx]
    simp only [skipBlanks_cons (by decide : isBlank ']' = false)]
  | cons y l ih =>
    obtain ⟨fuel, rfl⟩ := Nat.exists_eq_add_one_of_ne_zero (Nat.ne_zero_of_lt hfuel)
    have htail := ih (x := y) (fun z hz => hread z (List.mem_cons_of_mem _ hz))
      (fun z hz => hopens z (List.mem_cons_of_mem _ hz)) fuel (Nat.lt_of_succ_lt_succ hfuel)
    have hx := hread x List.mem_cons_self ','
      (write y ++ (l.map write).flatMap (',' :: ·) ++ ']' :: rest) rfl
    obtain ⟨c, s, hy, hblank, hbracket⟩ := hopens y (List.mem_cons_of_mem _ List.mem_cons_self)
    rw [List.map_cons, List.flatMap_cons, readItems]
    simp only [List.append_assoc, List.cons_append] at hx htail ⊢
    rw [hx]
    simp only [skipBlanks_cons (by decide : isBlank ',' = false)]
    rw [htail]
    simp only [hy, List.cons_append, skipBlanks_cons hblank]
    split
    next h => cases h; exact absurd rfl hbracket
    next => rfl

/-- An array is read item by item. -/
theorem reads_array {l : List α} (hread : ∀ x ∈ l, Reads read (write x) x)
    (hopens : ∀ x ∈ l, Opens (write x)) :
    Reads (readArray read) (writeArray (l.map write)) l := by
  intro c rest _
  rw [writeArray, List.cons_append, List.append_assoc, readArray,
    skipBlanks_cons (by decide : isBlank '[' = false)]
  cases l with
  | nil => rfl
  | cons x l =>
    obtain ⟨d, s, hx, hblank, hbracket⟩ := hopens x List.mem_cons_self
    have hlength : ((x :: l).map write).length ≤ _ := length_le_commaSeparated (by
      intro item hitem
      obtain ⟨y, hy, rfl⟩ := List.mem_map.1 hitem
      obtain ⟨d, s, hy, -, -⟩ := hopens y hy
      rw [hy]
      exact List.cons_ne_nil d s)
    have hitems := readItems_items hread hopens
      (commaSeparated ((x :: l).map write) ++ ']' :: c :: rest).length (by
        rw [List.length_map, List.length_cons] at hlength
        rw [List.length_append, List.length_cons]
        omega) (c :: rest)
    rw [List.map_cons, commaSeparated_cons] at hitems ⊢
    simp only [List.append_assoc, hx, List.cons_append, List.nil_append,
      skipBlanks_cons hblank] at hitems ⊢
    split
    next h => cases h; exact absurd rfl hbracket
    next => exact hitems

theorem reads_strings (l : List String) :
    Reads (readArray readString) (writeArray (l.map writeString)) l :=
  reads_array (fun s _ => reads_string s) (fun s _ => opens_writeString s)

end

/-! ## Records

A written record has some of the fields, in any order, and none of them twice. -/

/-- A field of a written record, with the text of its value and what reading that makes of
a draft. -/
structure Entry (Draft : Type) where
  field : Field Draft
  text : List Char
  set : Draft → Draft
  reads : Reads field.read text set

namespace Entry

variable {Draft : Type}

/-- The entry of a field whose value is read from the text. -/
def of {α : Type} (key : String) {read : Reader α} (set : α → Draft → Draft) {text : List Char}
    {value : α} (h : Reads read text value) : Entry Draft where
  field := .of key read set
  text := text
  set := set value
  reads := by
    intro c rest hc
    show (read _).map _ = _
    rw [h c rest hc]
    rfl

/-- The key and the text of the value, as they are written. -/
def written (e : Entry Draft) : String × List Char := (e.field.key, e.text)

/-- The text of the entry behind the quote that opens its key. -/
def behindQuote (e : Entry Draft) : List Char :=
  e.field.key.toList.flatMap escape ++ '"' :: ':' :: e.text

end Entry

namespace Record

variable {Draft α : Type} {fields : List (Field Draft)}

/-- One key and its value are read. -/
theorem readByKey_entry {e : Entry Draft} {seen : List String}
    (hfield : fields.find? (·.key == e.field.key) = some e.field)
    (hseen : e.field.key ∉ seen) {s rest : List Char} {c : Char} (hc : isDelimiter c = true)
    (hkey : nextKey seen.isEmpty s = .ok (some (e.behindQuote ++ c :: rest))) (fuel : Nat)
    (draft : Draft) :
    readByKey fields (fuel + 1) draft seen s =
      readByKey fields fuel (e.set draft) (e.field.key :: seen) (c :: rest) := by
  have hcontains : seen.contains e.field.key = false := by simpa using hseen
  rw [readByKey, hkey]
  simp only [Entry.behindQuote, List.append_assoc, List.cons_append, readQuoted_escapes, hfield,
    hcontains, Bool.false_eq_true, if_false]
  have hcolon : expect ':' (':' :: (e.text ++ c :: rest)) = .ok (e.text ++ c :: rest) := by
    rw [expect, skipBlanks_cons (by decide)]
    rfl
  have hvalue : (do e.field.read (← expect ':' (':' :: (e.text ++ c :: rest)))) =
      .ok (e.set, c :: rest) := by
    rw [hcolon]
    exact e.reads c rest hc
  rw [hvalue]

/-- Behind an entry stands the next one or the end of the object. -/
theorem behind_entry (entries : List (Entry Draft)) (rest : List Char) :
    ∃ c behind, entries.flatMap (fun e => ',' :: '"' :: e.behindQuote) ++ '\x7d' :: rest =
      c :: behind ∧ isDelimiter c = true := by
  cases entries with
  | nil => exact ⟨'\x7d', rest, rfl, rfl⟩
  | cons e entries => exact ⟨',', _, rfl, rfl⟩

/-- The rest of an object, behind its first entry. -/
theorem readByKey_entries {entries : List (Entry Draft)} (seen : List String)
    (hfield : ∀ e ∈ entries, fields.find? (·.key == e.field.key) = some e.field)
    (hseen : ∀ e ∈ entries, e.field.key ∉ seen) (hstarted : seen ≠ [])
    (hnodup : (entries.map (·.field.key)).Nodup) (fuel : Nat) (hfuel : entries.length < fuel)
    (draft : Draft) (rest : List Char) :
    readByKey fields fuel draft seen
        (entries.flatMap (fun e => ',' :: '"' :: e.behindQuote) ++ '\x7d' :: rest) =
      .ok (entries.foldl (fun draft e => e.set draft) draft, '\x7d' :: rest) := by
  have hfirst : seen.isEmpty = false := by simpa using hstarted
  induction entries generalizing seen fuel draft with
  | nil =>
    obtain ⟨fuel, rfl⟩ := Nat.exists_eq_add_one_of_ne_zero (Nat.ne_zero_of_lt hfuel)
    rw [List.flatMap_nil, List.nil_append, readByKey, nextKey, skipBlanks_cons (by decide)]
    rfl
  | cons e entries ih =>
    obtain ⟨fuel, rfl⟩ := Nat.exists_eq_add_one_of_ne_zero (Nat.ne_zero_of_lt hfuel)
    obtain ⟨d, behind, hbehind, hd⟩ := behind_entry entries rest
    rw [List.map_cons, List.nodup_cons] at hnodup
    have htail := ih (e.field.key :: seen) (fun e' he' => hfield e' (List.mem_cons_of_mem _ he'))
      (fun e' he' => by
        rw [List.mem_cons, not_or]
        refine ⟨?_, hseen e' (List.mem_cons_of_mem _ he')⟩
        intro hkey
        exact hnodup.1 (List.mem_map.2 ⟨e', he', hkey⟩))
      (List.cons_ne_nil _ _) hnodup.2 fuel (Nat.lt_of_succ_lt_succ hfuel) (e.set draft) rfl
    rw [List.foldl_cons, ← htail, List.flatMap_cons, List.append_assoc, hbehind]
    apply readByKey_entry (hfield e List.mem_cons_self) (hseen e List.mem_cons_self) hd
    rw [hfirst, List.cons_append, List.cons_append, nextKey, skipBlanks_cons (by decide)]
    rfl

/-- An object is read from its opening bracket up to its end. -/
theorem readByKey_commaSeparated {entries : List (Entry Draft)}
    (hfield : ∀ e ∈ entries, fields.find? (·.key == e.field.key) = some e.field)
    (hnodup : (entries.map (·.field.key)).Nodup) (fuel : Nat) (hfuel : entries.length < fuel)
    (draft : Draft) (rest : List Char) :
    readByKey fields fuel draft []
        (commaSeparated (entries.map fun e => '"' :: e.behindQuote) ++ '\x7d' :: rest) =
      .ok (entries.foldl (fun draft e => e.set draft) draft, '\x7d' :: rest) := by
  obtain ⟨fuel, rfl⟩ := Nat.exists_eq_add_one_of_ne_zero (Nat.ne_zero_of_lt hfuel)
  cases entries with
  | nil =>
    show readByKey fields (fuel + 1) draft [] ('\x7d' :: rest) = _
    rw [readByKey, nextKey, skipBlanks_cons (by decide)]
    rfl
  | cons e entries =>
    obtain ⟨d, behind, hbehind, hd⟩ := behind_entry entries rest
    rw [List.map_cons, List.nodup_cons] at hnodup
    have htail := readByKey_entries [e.field.key]
      (fun e' he' => hfield e' (List.mem_cons_of_mem _ he'))
      (fun e' he' hkey => hnodup.1 (List.mem_map.2 ⟨e', he', List.mem_singleton.1 hkey⟩))
      (List.cons_ne_nil _ _) hnodup.2 fuel (Nat.lt_of_succ_lt_succ hfuel) (e.set draft) rest
    rw [List.foldl_cons, ← htail, List.map_cons, commaSeparated_cons, List.append_assoc,
      List.flatMap_map, hbehind]
    apply readByKey_entry (hfield e List.mem_cons_self) (List.not_mem_nil) hd
    rw [List.isEmpty_nil, List.cons_append, nextKey, skipBlanks_cons (by decide)]
    rfl

theorem writeObject_written (entries : List (Entry Draft)) :
    writeObject (entries.map Entry.written) =
      '\x7b' :: (commaSeparated (entries.map fun e => '"' :: e.behindQuote) ++ ['\x7d']) := by
  have hentry (e : Entry Draft) :
      writeString e.field.key ++ ':' :: e.text = '"' :: e.behindQuote := writeString_append _ _
  rw [writeObject, List.map_map]
  simp only [Function.comp_def, Entry.written, hentry]

/-- A record is read back from its entries, if each of them is the first field of its key. -/
theorem read_writeObject (r : Record Draft α) {entries : List (Entry Draft)}
    (hfield : ∀ e ∈ entries, r.fields.find? (·.key == e.field.key) = some e.field)
    (hnodup : (entries.map (·.field.key)).Nodup) {value : α}
    (hfinish : r.finish (entries.foldl (fun draft e => e.set draft) r.empty) = some value)
    (rest : List Char) :
    r.read (writeObject (entries.map Entry.written) ++ rest) = .ok (value, rest) := by
  have hlength : (entries.map fun e => '"' :: e.behindQuote).length ≤ _ :=
    length_le_commaSeparated (by
      intro item hitem
      obtain ⟨e, -, rfl⟩ := List.mem_map.1 hitem
      exact List.cons_ne_nil _ _)
  have hentries := readByKey_commaSeparated hfield hnodup
    (commaSeparated (entries.map fun e => '"' :: e.behindQuote) ++ '\x7d' :: rest).length (by
      rw [List.length_map] at hlength
      rw [List.length_append, List.length_cons]
      omega) r.empty rest
  have hcomplete : r.complete (entries.foldl (fun draft e => e.set draft) r.empty) = .ok value := by
    rw [complete, hfinish]
  have hbracket : expect '\x7d' ('\x7d' :: rest) = .ok rest := by
    rw [expect, skipBlanks_cons (by decide)]
    rfl
  rw [writeObject_written, List.cons_append, List.append_assoc, List.singleton_append, read,
    skipBlanks_cons (by decide)]
  show (readByKey _ _ _ _ _ >>= _) = _
  rw [hentries]
  show (r.complete _ >>= _) = _
  rw [hcomplete]
  show (expect '\x7d' ('\x7d' :: rest) >>= fun rest => .ok (value, rest)) = _
  rw [hbracket]
  rfl

/-- A text that is a written record and nothing else. -/
theorem ofText_writeObject (r : Record Draft α) {entries : List (Entry Draft)}
    (hfield : ∀ e ∈ entries, r.fields.find? (·.key == e.field.key) = some e.field)
    (hnodup : (entries.map (·.field.key)).Nodup) {value : α}
    (hfinish : r.finish (entries.foldl (fun draft e => e.set draft) r.empty) = some value) :
    r.ofText (String.ofList (writeObject (entries.map Entry.written))) = .ok value := by
  have hread := read_writeObject r hfield hnodup hfinish []
  rw [List.append_nil] at hread
  rw [ofText, String.toList_ofList, hread]
  rfl

end Record

end Downlevel.Json

namespace Downlevel.SourceMap

open Json

/-! ## Source maps -/

/-- The entries of a source map that has a version, without the root of its sources. -/
def entries (m : SourceMap) (h : m.version < 2 ^ 32) : List (Entry Draft) :=
  .of "version" (fun v d => { d with version := some v }) (reads_natural h) ::
    .of "file" (fun v d => { d with file := some v }) (reads_string m.file) ::
    (match m.sourceRoot with
      | none => []
      | some root =>
        [.of "sourceRoot" (fun v d => { d with sourceRoot := v }) (reads_optional root)]) ++
    [.of "sources" (fun v d => { d with sources := some v }) (reads_strings m.sources),
      .of "names" (fun v d => { d with names := some v }) (reads_strings m.names),
      .of "mappings" (fun v d => { d with mappings := some v }) (reads_string m.mappings)]

theorem toJson_eq (m : SourceMap) (h : m.version < 2 ^ 32) :
    m.toJson = String.ofList (writeObject ((m.entries h).map Entry.written)) := by
  rw [toJson, entries]
  cases m.sourceRoot <;> rfl

theorem find?_entries (m : SourceMap) (h : m.version < 2 ^ 32) :
    ∀ e ∈ m.entries h, record.fields.find? (·.key == e.field.key) = some e.field := by
  intro e he
  unfold entries at he
  cases hroot : m.sourceRoot with
  | none =>
    simp only [hroot, List.cons_append, List.nil_append, List.mem_cons, List.not_mem_nil,
      or_false] at he
    rcases he with rfl | rfl | rfl | rfl | rfl <;> rfl
  | some root =>
    simp only [hroot, List.cons_append, List.nil_append, List.mem_cons, List.not_mem_nil,
      or_false] at he
    rcases he with rfl | rfl | rfl | rfl | rfl | rfl <;> rfl

theorem nodup_entries (m : SourceMap) (h : m.version < 2 ^ 32) :
    ((m.entries h).map (·.field.key)).Nodup := by
  unfold entries
  cases m.sourceRoot with
  | none => simp [Entry.of, Field.of]
  | some root => simp [Entry.of, Field.of]

/-- Every field of a source map is set by its entry; the one that can be left out stays empty. -/
theorem finish_entries (m : SourceMap) (h : m.version < 2 ^ 32) :
    record.finish ((m.entries h).foldl (fun draft e => e.set draft) record.empty) = some m := by
  obtain ⟨version, file, root, sources, names, mappings⟩ := m
  cases root <;> rfl

/-- A source map whose version has 32 bits is read back from its own text. -/
theorem ofJson_toJson (m : SourceMap) (h : m.version < 2 ^ 32) : ofJson m.toJson = .ok m := by
  rw [toJson_eq m h]
  exact Record.ofText_writeObject record (m.find?_entries h) (m.nodup_entries h)
    (m.finish_entries h)

/-- Quotes, backslashes, control characters, a line separator, a character beyond the basic plane
and an empty list are read back, and so is the missing root. -/
theorem ofJson_toJson_escapes :
    2 ^ 32 - 1 < 2 ^ 32 ∧
      ofJson (toJson ⟨2 ^ 32 - 1, "a\"b\\c/", none,
          ["\x00\x01\x08\t\n\x0c\r\x1f\x7f", "\u2028\u2029", "𝄞"], [], "AAAA;;C"⟩) =
        .ok ⟨2 ^ 32 - 1, "a\"b\\c/", none,
          ["\x00\x01\x08\t\n\x0c\r\x1f\x7f", "\u2028\u2029", "𝄞"], [], "AAAA;;C"⟩ :=
  ⟨by decide, ofJson_toJson _ (by decide)⟩

end Downlevel.SourceMap
