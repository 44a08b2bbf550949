import Mathlib.Data.Nat.Digits.Lemmas
import NetProg.Shell.Shortcuts

/-!
# Shortcut indices as machine integers

`createCmdPipe` and `stringToNum` read an index into an `int`, digit by digit, and neither of
them looks for an overflow. Here `int` wraps around. Both then give the value of the digits
modulo 2^32, read as a signed number, so they agree on every string of digits. But a value
from 2^31 on may become negative, and `hash` of a negative key is no bucket, and two values
that differ by a multiple of 2^32 become one key.

`keysInRange_iff` says for which pairs of strings neither happens. `scanKey_of_scanIndex` and
`hash_eq` connect the machine integers to the numbers of `scanIndex` and the shortcut map, and
`intIndex_eq_some_iff` to the index that `createCmdPipe` looks up.
-/

namespace NetProg.Shell

open Cluster (digit_bounds)

/-- A string of digits. -/
structure DigitString where
  digits : List Char
  isNumber : IsNumber digits

/-- `num = num * 10 + c - '0'`. -/
def addDigit (num : BitVec 32) (c : Char) : BitVec 32 :=
  num * 10 + BitVec.ofNat 32 c.toNat - 48

/-- The loop of `createCmdPipe` over the digits of an index. -/
def scanDigits : List Char → BitVec 32 → Option (BitVec 32 × List Char)
  | [], _ => none
  | c :: mem, idx =>
    if c = ' ' ∨ c = '\n' then some (idx, mem)
    else if c.isDigit then scanDigits mem (addDigit idx c)
    else none

/-- The index scan of `createCmdPipe`, from the first character of the index on. -/
def scanKey (mem : List Char) : Option (BitVec 32 × List Char) :=
  if mem.head?.any Char.isDigit then scanDigits mem 0 else none

/-- `stringToNum`. `none` when the assertion ends the process. -/
def stringToNum (str : List Char) : Option (BitVec 32) :=
  str.foldlM (fun num c =>
    if c = '\n' then some num else if c.isDigit then some (addDigit num c) else none) 0

/-- `hash`. The remainder has the sign of the key. -/
def hashInt (key : BitVec 32) (mapSize : ℤ) : ℤ :=
  key.toInt.tmod mapSize

/-- `INT_MAX`. -/
def intMax : ℤ :=
  2147483647

/-! ## Keys in range -/

/-- The scan of `createCmdPipe`, in any line, and `stringToNum`, with or without the newline,
give this key. -/
structure HasKey (s : DigitString) (key : BitVec 32) : Prop where
  scanned : ∀ c rest, c = ' ' ∨ c = '\n' → scanKey (s.digits ++ c :: rest) = some (key, rest)
  typed : stringToNum (s.digits ++ ['\n']) = some key
  typedAtEnd : stringToNum s.digits = some key

/-- The key has a bucket in every map. -/
def HasBucket (key : BitVec 32) : Prop :=
  ∀ mapSize, 1 ≤ mapSize → mapSize ≤ intMax →
    0 ≤ hashInt key mapSize ∧ hashInt key mapSize < mapSize

/-- No zero is in front of another digit. -/
def NoLeadingZero (s : DigitString) : Prop :=
  s.digits.head? = some '0' → s.digits = ['0']

/-- The scans give each of the strings one key, the keys have buckets, and they are different
when the strings are different and have no leading zeros. -/
def KeysInRange (s t : DigitString) : Prop :=
  ∃ k l, HasKey s k ∧ HasKey t l ∧ HasBucket k ∧ HasBucket l ∧
    (NoLeadingZero s → NoLeadingZero t → s ≠ t → k ≠ l)

/-- The number that the digits stand for. -/
def DigitString.value (s : DigitString) : ℕ :=
  readIndex 0 s.digits

/-- The `int` of the number is not negative. -/
def DigitString.Small (s : DigitString) : Prop :=
  s.value % 4294967296 < 2147483648

/-- The numbers do not differ by a multiple of 2^32. -/
def Apart (s t : DigitString) : Prop :=
  s.value % 4294967296 = t.value % 4294967296 → s.value = t.value

/-! ## The scans -/

/-- The key of a string of digits. -/
def DigitString.key (s : DigitString) : BitVec 32 :=
  BitVec.ofNat 32 s.value

theorem addDigit_ofNat (idx : ℕ) {c : Char} (h : c.isDigit = true) :
    addDigit (BitVec.ofNat 32 idx) c = BitVec.ofNat 32 (idx * 10 + (c.toNat - 48)) := by
  have hc := (digit_bounds h).1
  apply BitVec.eq_of_toNat_eq
  simp only [addDigit, BitVec.ofNat_eq_ofNat, BitVec.toNat_sub, BitVec.toNat_add, BitVec.toNat_mul,
    BitVec.toNat_ofNat]
  omega

/-- The scan of machine integers follows the scan of numbers. -/
theorem scanDigits_of_scanIndex {mem rest : List Char} {idx₀ idx : ℕ}
    (h : scanIndex mem idx₀ = some (idx, rest)) :
    scanDigits mem (BitVec.ofNat 32 idx₀) = some (BitVec.ofNat 32 idx, rest) := by
  induction mem generalizing idx₀ with
  | nil => cases h
  | cons c mem ih =>
    rw [scanIndex] at h
    rw [scanDigits]
    split_ifs at h ⊢ with hc hd
    · cases h
      rfl
    · rw [addDigit_ofNat idx₀ hd]
      exact ih h

theorem scanKey_of_scanIndex {mem rest : List Char} {idx : ℕ}
    (hdigit : mem.head?.any Char.isDigit = true) (h : scanIndex mem 0 = some (idx, rest)) :
    scanKey mem = some (BitVec.ofNat 32 idx, rest) := by
  rw [scanKey, if_pos hdigit]
  exact scanDigits_of_scanIndex h

/-- The index is the machine integer, when that is not negative. -/
theorem intIndex_eq_some_iff {idx key : ℕ} :
    intIndex idx = some key ↔ (BitVec.ofNat 32 idx).toInt = key := by
  have hlt := Nat.mod_lt idx (show 4294967296 > 0 by decide)
  rw [intIndex, BitVec.toInt_eq_toNat_cond, BitVec.toNat_ofNat]
  by_cases hsmall : idx % 4294967296 < 2147483648
  · rw [if_pos hsmall, if_pos (by omega), Option.some.injEq]
    omega
  · rw [if_neg hsmall, if_neg (by omega)]
    refine iff_of_false (fun h => by cases h) ?_
    omega

theorem stringToNum_digits {digits tail : List Char} (idx : ℕ)
    (hdigits : ∀ d ∈ digits, d.isDigit = true) (htail : ∀ c ∈ tail, c = '\n') :
    (digits ++ tail).foldlM (fun num c =>
      if c = '\n' then some num else if c.isDigit then some (addDigit num c) else none)
        (BitVec.ofNat 32 idx) = some (BitVec.ofNat 32 (readIndex idx digits)) := by
  induction digits generalizing idx with
  | nil =>
    rw [List.nil_append]
    induction tail with
    | nil => rfl
    | cons c tail ih =>
      obtain ⟨hc, htail⟩ := List.forall_mem_cons.1 htail
      rw [List.foldlM_cons, if_pos hc]
      exact ih htail
  | cons d digits ih =>
    obtain ⟨hd, hdigits⟩ := List.forall_mem_cons.1 hdigits
    have hline : ¬d = '\n' := fun h => not_blank_of_isDigit hd (.inr h)
    rw [List.cons_append, List.foldlM_cons, if_neg hline, if_pos hd, addDigit_ofNat idx hd]
    exact ih _ hdigits

/-- Both scans give the key of the string. -/
theorem hasKey (s : DigitString) : HasKey s s.key := by
  obtain ⟨hne, hdigits⟩ := s.isNumber
  refine ⟨fun c rest hc => scanKey_of_scanIndex ?_ (scanIndex_digits 0 hdigits hc), ?_, ?_⟩
  · obtain ⟨d, digits, hs⟩ := List.exists_cons_of_ne_nil hne
    rw [hs] at hdigits ⊢
    exact hdigits d List.mem_cons_self
  · exact stringToNum_digits 0 hdigits (by simp)
  · have hnone : ∀ c ∈ ([] : List Char), c = '\n' := by simp
    have htyped := stringToNum_digits 0 hdigits hnone
    rwa [List.append_nil] at htyped

theorem HasKey.eq {s : DigitString} {k : BitVec 32} (h : HasKey s k) : k = s.key :=
  Option.some.inj (h.typedAtEnd.symm.trans (hasKey s).typedAtEnd)

theorem key_eq_iff {s t : DigitString} :
    s.key = t.key ↔ s.value % 4294967296 = t.value % 4294967296 := by
  rw [← BitVec.toNat_inj, DigitString.key, DigitString.key, BitVec.toNat_ofNat, BitVec.toNat_ofNat]

/-! ## Buckets -/

theorem toInt_key_nonneg_iff {s : DigitString} : 0 ≤ s.key.toInt ↔ s.Small := by
  have hlt := Nat.mod_lt s.value (show 4294967296 > 0 by decide)
  rw [DigitString.key, BitVec.toInt_eq_toNat_cond, BitVec.toNat_ofNat, DigitString.Small]
  split_ifs with h
  · omega
  · omega

/-- A key has a bucket in every map when it is not negative. -/
theorem hasBucket_iff {key : BitVec 32} : HasBucket key ↔ 0 ≤ key.toInt := by
  constructor
  · intro h
    by_contra hneg
    have hge := BitVec.le_toInt key
    -- a number of buckets that does not divide the key
    by_cases hmax : key.toInt = -intMax
    · have htwo := (h 2 (by decide) (by decide)).1
      rw [hashInt, hmax] at htwo
      exact absurd htwo (by decide)
    · have hlarge := (h intMax (by decide) (le_refl _)).1
      unfold hashInt intMax at hlarge
      unfold intMax at hmax
      rw [← Int.neg_neg key.toInt, Int.neg_tmod, Int.tmod_eq_emod_of_nonneg (by omega)] at hlarge
      omega
  · intro h mapSize hpos _
    exact ⟨Int.tmod_nonneg _ h, Int.tmod_lt_of_pos _ (by omega)⟩

/-- Of a number that an `int` holds, `hash` is the bucket of the shortcut map. -/
theorem hash_eq {n : ℕ} [NeZero n] {key : ℕ} (h : key < 2147483648) :
    hashInt (BitVec.ofNat 32 key) n = (hash n key : ℕ) := by
  have hkey : (BitVec.ofNat 32 key).toInt = key := by
    rw [BitVec.toInt_eq_toNat_cond, BitVec.toNat_ofNat]
    split_ifs with hsmall
    · omega
    · omega
  rw [hashInt, hkey]
  exact Int.ofNat_tmod key n

/-! ## Values -/

/-- The digits of a string as numbers, the last one first. -/
def DigitString.numbers (s : DigitString) : List ℕ :=
  (s.digits.map fun c => c.toNat - 48).reverse

theorem ofDigits_numbers (s : DigitString) : Nat.ofDigits 10 s.numbers = s.value := by
  rw [DigitString.numbers, Nat.ofDigits_eq_foldr, List.foldr_reverse, List.foldl_map,
    DigitString.value, readIndex]
  congr 1
  funext idx c
  simp only [Nat.cast_id]
  ring

/-- The digits are read back from the numbers. -/
theorem map_numbers (s : DigitString) :
    s.numbers.reverse.map (fun n => Char.ofNat (n + 48)) = s.digits := by
  rw [DigitString.numbers, List.reverse_reverse, List.map_map]
  refine (List.map_congr_left fun c hc => ?_).trans (List.map_id' s.digits)
  have hle := (digit_bounds (s.isNumber.2 c hc)).1
  rw [Function.comp_apply, Nat.sub_add_cancel hle, Char.ofNat_toNat]

theorem eq_of_numbers_eq {s t : DigitString} (h : s.numbers = t.numbers) : s = t := by
  have hdigits : s.digits = t.digits := by rw [← map_numbers s, h, map_numbers t]
  cases s
  cases t
  obtain rfl := hdigits
  rfl

/-- The numbers of a string without leading zeros are the digits of its value, unless the
string is a zero. -/
theorem digits_value {s : DigitString} (hzero : s.digits ≠ ['0']) (h : NoLeadingZero s) :
    Nat.digits 10 s.value = s.numbers := by
  rw [← ofDigits_numbers]
  refine Nat.digits_ofDigits 10 (by decide) _ (fun n hn => ?_) fun hne hlast => ?_
  · obtain ⟨c, hc, rfl⟩ := List.mem_map.1 (List.mem_reverse.1 hn)
    have hbounds := digit_bounds (s.isNumber.2 c hc)
    omega
  · -- the last number is the first digit
    obtain ⟨c, digits, hs⟩ := List.exists_cons_of_ne_nil s.isNumber.1
    simp only [DigitString.numbers, hs, List.map_cons, List.getLast_reverse, List.head_cons]
      at hlast
    have hbounds := digit_bounds (s.isNumber.2 c (by rw [hs]; exact List.mem_cons_self))
    have hc : c = '0' := by
      rw [← Char.ofNat_toNat c, show c.toNat = 48 by omega]
    refine hzero (h ?_)
    rw [hs, hc]
    rfl

theorem value_eq_zero {s : DigitString} (h : s.digits = ['0']) : s.value = 0 := by
  rw [DigitString.value, h]
  rfl

/-- Different strings without leading zeros stand for different numbers. -/
theorem eq_of_value_eq {s t : DigitString} (hs : NoLeadingZero s) (ht : NoLeadingZero t)
    (h : s.value = t.value) : s = t := by
  have hne : ∀ u : DigitString, u.numbers ≠ [] := fun u hu => u.isNumber.1 (by
    rw [← map_numbers u, hu]
    rfl)
  by_cases hs₀ : s.digits = ['0']
  · by_cases ht₀ : t.digits = ['0']
    · exact eq_of_numbers_eq (by rw [DigitString.numbers, DigitString.numbers, hs₀, ht₀])
    · have hdigits := digits_value ht₀ ht
      rw [← h, value_eq_zero hs₀, Nat.digits_zero] at hdigits
      exact absurd hdigits.symm (hne t)
  · by_cases ht₀ : t.digits = ['0']
    · have hdigits := digits_value hs₀ hs
      rw [h, value_eq_zero ht₀, Nat.digits_zero] at hdigits
      exact absurd hdigits.symm (hne s)
    · exact eq_of_numbers_eq (by rw [← digits_value hs₀ hs, ← digits_value ht₀ ht, h])

/-- The keys of two strings of digits are in range and apart exactly when the numbers of both
are below 2^31 modulo 2^32 and the numbers of strings without leading zeros do not differ by a
multiple of 2^32. -/
theorem keysInRange_iff (s t : DigitString) : KeysInRange s t ↔
    s.Small ∧ t.Small ∧ (NoLeadingZero s → NoLeadingZero t → Apart s t) := by
  constructor
  · rintro ⟨k, l, hk, hl, hkb, hlb, hne⟩
    obtain rfl := hk.eq
    obtain rfl := hl.eq
    refine ⟨toInt_key_nonneg_iff.1 (hasBucket_iff.1 hkb),
      toInt_key_nonneg_iff.1 (hasBucket_iff.1 hlb), fun hs ht hmod => ?_⟩
    by_contra hvalue
    exact hne hs ht (fun hst => hvalue (by rw [hst])) (key_eq_iff.2 hmod)
  · rintro ⟨hs, ht, hapart⟩
    refine ⟨s.key, t.key, hasKey s, hasKey t, hasBucket_iff.2 (toInt_key_nonneg_iff.2 hs),
      hasBucket_iff.2 (toInt_key_nonneg_iff.2 ht), fun hs' ht' hst hkey => hst ?_⟩
    exact eq_of_value_eq hs' ht' (hapart hs' ht' (key_eq_iff.1 hkey))

/-- 2^32 - 1. -/
def largeIndex : DigitString :=
  ⟨"4294967295".toList, by decide, List.all_eq_true.1 (by decide)⟩

/-- The bucket of the key is in front of the 19 buckets of the shell. -/
theorem not_keysInRange_largeIndex : ¬KeysInRange largeIndex largeIndex := by
  rintro ⟨k, l, hk, -, hbucket, -⟩
  have hkey : k = -1 := Option.some.inj (hk.typedAtEnd.symm.trans (by decide))
  have hhash := (hbucket 19 (by decide) (by decide)).1
  rw [hkey] at hhash
  exact absurd hhash (by decide)

end NetProg.Shell
