import NetProg.Rtt.Table

/-!
# The hash of an address

`djb2Hash32` is `djb2Hash` with the widths of its variables : `hash` has 64 bits, `map_size`
and the result 32, and so does `len`. The loop reduces three times in a turn and starts from
a seed that is not reduced. It computes the polynomial `djb2Poly` of the alphanumeric
characters modulo `map_size`, and no number on the way needs more than 64 bits. But it reads
only as many characters as fit in `len` : with 2 ^ 32 of them or more, it stops early
(`hashCorrect_iff`).
-/

namespace NetProg.Rtt

/-! ## The function -/

/-- A turn of the loop. `c` and `map_size` are converted to `unsigned long`. -/
def hashTurn (mapSize : BitVec 32) (hash : BitVec 64) (c : Char) : BitVec 64 :=
  if c.isAlphanum then
    (((hash <<< 5) % mapSize.signExtend 64 + hash) % mapSize.signExtend 64 +
      (BitVec.ofNat 32 c.toNat).signExtend 64) % mapSize.signExtend 64
  else hash

/-- The loop over the characters that it reads. -/
def hashLoop (mapSize : BitVec 32) (str : List Char) : BitVec 64 :=
  str.foldl (hashTurn mapSize) 5381

/-- `djb2Hash`, with the widths of its variables. -/
def djb2Hash32 (str : List Char) (mapSize : BitVec 32) : BitVec 32 :=
  let len := BitVec.ofNat 32 str.length
  (hashLoop mapSize (str.take len.toNat) % mapSize.signExtend 64).setWidth 32

/-- The numbers that a turn computes, before they are cut to 64 bits. -/
def turnValues (m h c : ℕ) : List ℕ :=
  [h * 2 ^ 5, h * 2 ^ 5 % m + h, (h * 2 ^ 5 % m + h) % m + c]

/-- No turn over the characters of `str` needs more than 64 bits. -/
def NoOverflow (str : List Char) (mapSize : BitVec 32) : Prop :=
  ∀ pre c post, str = pre ++ c :: post → c.isAlphanum = true →
    ∀ v ∈ turnValues mapSize.toNat (hashLoop mapSize pre).toNat c.toNat, v < 2 ^ 64

/-- The polynomial of the alphanumeric characters. -/
def djb2Poly (str : List Char) : ℕ :=
  (str.filter Char.isAlphanum).foldl (fun h c => 33 * h + c.toNat) 5381

/-- The result is the polynomial, reduced once. -/
structure HashCorrect (str : List Char) (mapSize : BitVec 32) : Prop where
  nonneg : 0 ≤ (djb2Hash32 str mapSize).toInt
  lt : (djb2Hash32 str mapSize).toInt < mapSize.toInt
  eq : (djb2Hash32 str mapSize).toInt = djb2Poly str % mapSize.toInt
  noOverflow : NoOverflow str mapSize

/-! ## One turn -/

theorem toNat_lt_of_isAlphanum {c : Char} (h : c.isAlphanum = true) : c.toNat < 128 := by
  delta Char.isAlphanum Char.isAlpha Char.isUpper Char.isLower Char.isDigit at h
  simp only [Bool.or_eq_true, Bool.and_eq_true, decide_eq_true_eq, ge_iff_le,
    UInt32.le_iff_toNat_le] at h
  have hval : c.toNat = c.val.toNat := rfl
  have hdigit : '9'.val.toNat = 57 := rfl
  have hupper : 'Z'.val.toNat = 90 := rfl
  have hlower : 'z'.val.toNat = 122 := rfl
  omega

/-- The same turn on numbers. -/
def turn (m h : ℕ) (c : Char) : ℕ :=
  if c.isAlphanum then ((h * 32 % m + h) % m + c.toNat) % m else h

section

variable {mapSize : BitVec 32}

/-- A positive `int`. -/
theorem toNat_of_pos (hm : 0 < mapSize.toInt) :
    0 < mapSize.toNat ∧ mapSize.toNat < 2 ^ 31 ∧ mapSize.toInt = mapSize.toNat ∧
      (mapSize.signExtend 64).toNat = mapSize.toNat := by
  have hlt : 2 * mapSize.toNat < 2 ^ 32 := BitVec.toInt_pos_iff.1 hm.le
  have hmsb := BitVec.msb_eq_false_iff_two_mul_lt.2 hlt
  have hint := BitVec.toInt_eq_toNat_of_lt hlt
  refine ⟨by omega, by omega, hint, ?_⟩
  rw [BitVec.signExtend_eq_setWidth_of_msb_false hmsb, BitVec.toNat_setWidth_of_le (by decide)]

theorem turn_lt (hm : 0 < mapSize.toInt) {h : ℕ} (hh : h < 2 ^ 31) (c : Char) :
    turn mapSize.toNat h c < 2 ^ 31 := by
  obtain ⟨hpos, hlt, -⟩ := toNat_of_pos hm
  unfold turn
  split_ifs
  · exact (Nat.mod_lt _ hpos).trans hlt
  · exact hh

theorem turnValues_lt (hm : 0 < mapSize.toInt) {h : ℕ} (hh : h < 2 ^ 31) {c : ℕ} (hc : c < 128) :
    ∀ v ∈ turnValues mapSize.toNat h c, v < 2 ^ 64 := by
  obtain ⟨hpos, hlt, -⟩ := toNat_of_pos hm
  have hshift := Nat.mod_lt (h * 2 ^ 5) hpos
  have hsum := Nat.mod_lt (h * 2 ^ 5 % mapSize.toNat + h) hpos
  simp only [turnValues, List.forall_mem_cons]
  exact ⟨by omega, by omega, by omega, fun v hv => (by cases hv)⟩

/-- No turn overflows, so the turn computes what it says. -/
theorem toNat_hashTurn (hm : 0 < mapSize.toInt) {hash : BitVec 64} (hh : hash.toNat < 2 ^ 31)
    (c : Char) : (hashTurn mapSize hash c).toNat = turn mapSize.toNat hash.toNat c := by
  unfold hashTurn turn
  split_ifs with halnum
  · have hc := toNat_lt_of_isAlphanum halnum
    have hvalues := turnValues_lt hm hh hc
    simp only [turnValues, List.forall_mem_cons] at hvalues
    obtain ⟨hshift, hsum, hlast, -⟩ := hvalues
    obtain ⟨-, -, -, hext⟩ := toNat_of_pos hm
    have hcharNat : (BitVec.ofNat 32 c.toNat).toNat = c.toNat := Nat.mod_eq_of_lt (by omega)
    have hcharPos : (BitVec.ofNat 32 c.toNat).msb = false :=
      BitVec.msb_eq_false_iff_two_mul_lt.2 (by rw [hcharNat]; omega)
    have hchar : ((BitVec.ofNat 32 c.toNat).signExtend 64).toNat = c.toNat := by
      rw [BitVec.signExtend_eq_setWidth_of_msb_false hcharPos,
        BitVec.toNat_setWidth_of_le (by decide), hcharNat]
    rw [BitVec.toNat_umod, BitVec.toNat_add, BitVec.toNat_umod, BitVec.toNat_add,
      BitVec.toNat_umod, BitVec.toNat_shiftLeft, hext, hchar, Nat.shiftLeft_eq,
      Nat.mod_eq_of_lt hshift, Nat.mod_eq_of_lt hsum, Nat.mod_eq_of_lt hlast,
      show (2 : ℕ) ^ 5 = 32 from rfl]
  · rfl

/-- A turn keeps to the polynomial modulo the size of the map. -/
theorem turn_modEq {m h k : ℕ} (hk : h ≡ k [MOD m]) (c : Char) :
    turn m h c ≡ (if c.isAlphanum then 33 * k + c.toNat else k) [MOD m] := by
  unfold turn
  split_ifs
  · refine (Nat.mod_modEq _ m).trans (Nat.ModEq.add_right _ ?_)
    calc (h * 32 % m + h) % m ≡ h * 32 % m + h [MOD m] := Nat.mod_modEq _ m
      _ ≡ h * 32 + h [MOD m] := (Nat.mod_modEq _ m).add_right h
      _ = 33 * h := by ring
      _ ≡ 33 * k [MOD m] := hk.mul_left 33
  · exact hk

/-! ## The loop -/

theorem toNat_foldl_hashTurn (hm : 0 < mapSize.toInt) (str : List Char) {hash : BitVec 64}
    (hh : hash.toNat < 2 ^ 31) : (str.foldl (hashTurn mapSize) hash).toNat =
      str.foldl (turn mapSize.toNat) hash.toNat ∧
        (str.foldl (hashTurn mapSize) hash).toNat < 2 ^ 31 := by
  induction str generalizing hash with
  | nil => exact ⟨rfl, hh⟩
  | cons c str ih =>
    have hturn := toNat_hashTurn hm hh c
    have hsmall : (hashTurn mapSize hash c).toNat < 2 ^ 31 := hturn ▸ turn_lt hm hh c
    obtain ⟨heq, hlt⟩ := ih hsmall
    exact ⟨by rw [List.foldl_cons, heq, hturn, List.foldl_cons], hlt⟩

/-- The seed is not reduced, but small. -/
theorem toNat_hashLoop (hm : 0 < mapSize.toInt) (str : List Char) :
    (hashLoop mapSize str).toNat = str.foldl (turn mapSize.toNat) 5381 ∧
      (hashLoop mapSize str).toNat < 2 ^ 31 :=
  toNat_foldl_hashTurn hm str (by decide)

theorem noOverflow (hm : 0 < mapSize.toInt) (str : List Char) : NoOverflow str mapSize :=
  fun pre _ _ _ hc =>
    turnValues_lt hm (toNat_hashLoop hm pre).2 (toNat_lt_of_isAlphanum hc)

theorem foldl_turn_modEq {m h k : ℕ} (hk : h ≡ k [MOD m]) (str : List Char) :
    str.foldl (turn m) h ≡
      (str.filter Char.isAlphanum).foldl (fun h c => 33 * h + c.toNat) k [MOD m] := by
  rw [List.foldl_filter]
  induction str generalizing h k with
  | nil => exact hk
  | cons c str ih => exact ih (turn_modEq hk c)

/-- The hash is the polynomial of the characters that are read. -/
theorem toNat_djb2Hash32 (hm : 0 < mapSize.toInt) (str : List Char) :
    (djb2Hash32 str mapSize).toNat =
      djb2Poly (str.take (str.length % 2 ^ 32)) % mapSize.toNat := by
  obtain ⟨hpos, hlt, -, hext⟩ := toNat_of_pos hm
  have hmod := Nat.mod_lt (hashLoop mapSize (str.take (str.length % 2 ^ 32))).toNat hpos
  rw [djb2Hash32, BitVec.toNat_ofNat, BitVec.toNat_setWidth, BitVec.toNat_umod, hext,
    Nat.mod_eq_of_lt (by omega), (toNat_hashLoop hm _).1]
  exact foldl_turn_modEq rfl _

/-- The function of the table is this one, for a string whose length fits in `len`. -/
theorem djb2Hash32_eq_djb2Hash [NeZero mapSize.toNat] (hm : 0 < mapSize.toInt) {str : List Char}
    (hlen : str.length < 2 ^ 32) :
    (djb2Hash32 str mapSize).toNat = djb2Hash mapSize.toNat str := by
  rw [toNat_djb2Hash32 hm, Nat.mod_eq_of_lt hlen, List.take_length]
  exact (foldl_turn_modEq rfl str).symm

/-! ## Result -/

/-- The hash is right if and only if the characters that are not read do not count. -/
theorem hashCorrect_iff_modEq (hm : 0 < mapSize.toInt) (str : List Char) :
    HashCorrect str mapSize ↔
      djb2Poly (str.take (str.length % 2 ^ 32)) ≡ djb2Poly str [MOD mapSize.toNat] := by
  obtain ⟨hpos, hlt, hint, -⟩ := toNat_of_pos hm
  have hhash := toNat_djb2Hash32 hm str
  have hmod := Nat.mod_lt (djb2Poly (str.take (str.length % 2 ^ 32))) hpos
  have hresult : (djb2Hash32 str mapSize).toInt = (djb2Hash32 str mapSize).toNat :=
    BitVec.toInt_eq_toNat_of_lt (by omega)
  rw [Nat.ModEq, ← hhash]
  constructor
  · intro h
    have heq := h.eq
    rw [hresult, hint] at heq
    exact_mod_cast heq
  · intro h
    refine ⟨by omega, by omega, ?_, noOverflow hm str⟩
    rw [hresult, hint, h]
    norm_cast

theorem hashCorrect_of_length_lt (hm : 0 < mapSize.toInt) {str : List Char}
    (hlen : str.length < 2 ^ 32) : HashCorrect str mapSize := by
  rw [hashCorrect_iff_modEq hm, Nat.mod_eq_of_lt hlen, List.take_length]

/-- A letter behind `n` hyphens. -/
def farLetter (n : ℕ) : List Char :=
  List.replicate n '-' ++ ['a']

theorem length_farLetter (n : ℕ) : (farLetter n).length = n + 1 := by
  simp [farLetter]

theorem djb2Poly_replicate (n : ℕ) : djb2Poly (List.replicate n '-') = 5381 := by
  rw [djb2Poly, List.filter_replicate_of_neg (by decide)]
  rfl

theorem djb2Poly_farLetter (n : ℕ) : djb2Poly (farLetter n) = 177670 := by
  rw [djb2Poly, farLetter, List.filter_append, List.filter_replicate_of_neg (by decide)]
  rfl

/-- The letter is not read when it stands too far behind. -/
theorem not_hashCorrect_farLetter {n : ℕ} (hn : 2 ^ 32 ≤ n + 1) :
    ¬HashCorrect (farLetter n) 7919 := by
  have hle : (n + 1) % 2 ^ 32 ≤ n := by omega
  have htake : (farLetter n).take ((n + 1) % 2 ^ 32) =
      List.replicate ((n + 1) % 2 ^ 32) '-' := by
    rw [farLetter, List.take_append_of_le_length (by simpa using hle), List.take_replicate,
      min_eq_left hle]
  rw [hashCorrect_iff_modEq (by decide), length_farLetter, htake, djb2Poly_replicate,
    djb2Poly_farLetter]
  decide

/-- The length of this string is 0 in 32 bits. -/
theorem not_hashCorrect_two_pow : (farLetter (2 ^ 32 - 1)).length = 2 ^ 32 ∧
    ¬HashCorrect (farLetter (2 ^ 32 - 1)) 7919 :=
  ⟨length_farLetter _, not_hashCorrect_farLetter (by norm_num)⟩

/-- Strings of `n` characters are all hashed right if and only if `n` fits in `len`. -/
theorem forall_hashCorrect_iff (n : ℕ) :
    (∀ (str : List Char) (mapSize : BitVec 32), str.length = n → 0 < mapSize.toInt →
      HashCorrect str mapSize) ↔ n < 2 ^ 32 := by
  constructor
  · intro h
    by_contra hn
    obtain ⟨k, rfl⟩ := Nat.exists_eq_add_of_le' (show 1 ≤ n by omega)
    have hcorrect := h (farLetter k) 7919 (length_farLetter k) (by decide)
    exact not_hashCorrect_farLetter (by omega) hcorrect
  · intro hn str mapSize hlen hm
    exact hashCorrect_of_length_lt hm (hlen ▸ hn)

/-- A string is hashed right if and only if the characters that are not read do not count, and
then it falls in one bucket with every string hashed right that has the same alphanumeric
characters. Of a string whose length fits in `len` all characters are read. -/
theorem hashCorrect_iff (hm : 0 < mapSize.toInt) (str : List Char) :
    (HashCorrect str mapSize ↔
      djb2Poly (str.take (str.length % 2 ^ 32)) ≡ djb2Poly str [MOD mapSize.toNat]) ∧
    (str.length < 2 ^ 32 → HashCorrect str mapSize) ∧
    ∀ str', HashCorrect str mapSize → HashCorrect str' mapSize →
      str.filter Char.isAlphanum = str'.filter Char.isAlphanum →
      djb2Hash32 str mapSize = djb2Hash32 str' mapSize := by
  refine ⟨hashCorrect_iff_modEq hm str, hashCorrect_of_length_lt hm, fun str' h h' heq => ?_⟩
  refine BitVec.toInt_inj.1 ?_
  rw [h.eq, h'.eq, djb2Poly, djb2Poly, heq]

/-- An address with and without its dots. -/
theorem hashCorrect_dots : djb2Hash32 ['1', '.', '2'] 7919 = djb2Hash32 ['1', '2'] 7919 := by
  have hpos : 0 < (7919 : BitVec 32).toInt := by decide
  have hdots := hashCorrect_iff hpos ['1', '.', '2']
  exact hdots.2.2 ['1', '2'] (hdots.2.1 (by decide))
    ((hashCorrect_iff hpos ['1', '2']).2.1 (by decide)) rfl

end

end NetProg.Rtt
