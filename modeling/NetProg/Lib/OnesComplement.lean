import Mathlib.Tactic

/-!
# One's complement sums

Words are numbers up to `m`, with `m + 1` a power of two in practice. A one's complement
addition adds the carry out of the top back in at the bottom. 0 and `m` both stand for
zero, so the sums are numbers modulo `m` with one representative chosen : `residue m n` is
0 for `n = 0` only.

`fold` adds the part of a number above the low word to the low word. It keeps the residue,
and twice is enough for a number below `(m + 1) ^ 2`.
-/

namespace NetProg.Lib

/-- The one's complement sum of two words. -/
def onesAdd (m a b : ℕ) : ℕ :=
  if a + b ≤ m then a + b else a + b - m

/-- The one's complement sum of a list of words. -/
def onesSum (m : ℕ) (ws : List ℕ) : ℕ :=
  ws.foldl (onesAdd m) 0

/-- The word that stands for `n`. -/
def residue (m n : ℕ) : ℕ :=
  if n = 0 then 0 else (n - 1) % m + 1

/-- Add the carries to the low word. -/
def fold (m n : ℕ) : ℕ :=
  n / (m + 1) + n % (m + 1)

variable {m n k a b : ℕ}

@[simp] theorem residue_zero : residue m 0 = 0 :=
  rfl

theorem residue_le (hm : 0 < m) (n : ℕ) : residue m n ≤ m := by
  unfold residue
  split
  · exact Nat.zero_le m
  · exact Nat.mod_lt (n - 1) hm

theorem residue_of_le (h : n ≤ m) : residue m n = n := by
  unfold residue
  split
  · rename_i h0
    exact h0.symm
  · rw [Nat.mod_eq_of_lt (by omega)]
    omega

@[simp] theorem residue_eq_zero_iff : residue m n = 0 ↔ n = 0 := by
  unfold residue
  split
  · rename_i h0
    exact iff_of_true rfl h0
  · rename_i h0
    exact iff_of_false (by omega) h0

theorem residue_modEq (m n : ℕ) : residue m n ≡ n [MOD m] := by
  unfold residue
  split
  · rename_i h0
    rw [h0]
  · have h := (Nat.mod_modEq (n - 1) m).add_right 1
    rwa [Nat.sub_add_cancel (by omega)] at h

/-- The residue of `n` is the residue of every number that is equal to `n` modulo `m`, and
is 0 with it. -/
theorem residue_congr (h : n ≡ k [MOD m]) (h0 : n = 0 ↔ k = 0) :
    residue m n = residue m k := by
  by_cases hn : n = 0
  · rw [hn, h0.1 hn]
  have hk : k ≠ 0 := fun hk => hn (h0.2 hk)
  have hpred : n - 1 ≡ k - 1 [MOD m] := by
    refine Nat.ModEq.add_right_cancel' 1 ?_
    rwa [Nat.sub_add_cancel (by omega), Nat.sub_add_cancel (by omega)]
  unfold residue
  rw [if_neg hn, if_neg hk, hpred]

theorem residue_residue_add (n k : ℕ) :
    residue m (residue m n + k) = residue m (n + k) := by
  refine residue_congr ((residue_modEq m n).add_right k) ?_
  rw [Nat.add_eq_zero_iff, Nat.add_eq_zero_iff, residue_eq_zero_iff]

/-! ## Sums -/

theorem onesAdd_eq (ha : a ≤ m) (hb : b ≤ m) : onesAdd m a b = residue m (a + b) := by
  unfold onesAdd
  split
  · rename_i h
    exact (residue_of_le h).symm
  · rename_i h
    rw [← Nat.sub_add_cancel (show m ≤ a + b by omega), Nat.add_sub_cancel]
    refine (residue_of_le (by omega : a + b - m ≤ m)).symm.trans ?_
    exact residue_congr (Nat.add_mod_right (a + b - m) m).symm (by omega)

/-- The one's complement sum stands for the sum. -/
theorem onesSum_eq (hm : 0 < m) {ws : List ℕ} (hws : ∀ w ∈ ws, w ≤ m) :
    onesSum m ws = residue m ws.sum := by
  have hfold : ∀ s, ws.foldl (onesAdd m) (residue m s) = residue m (s + ws.sum) := by
    induction ws with
    | nil => exact fun s => rfl
    | cons w ws ih =>
      intro s
      rw [List.foldl_cons, onesAdd_eq (residue_le hm s) (hws w (by simp)),
        residue_residue_add, ih (fun v hv => hws v (by simp [hv])), List.sum_cons, add_assoc]
  have h0 := hfold 0
  rwa [residue_zero, zero_add] at h0

/-- A sum with the complement of its one's complement sum stands for zero, as `m`. -/
theorem residue_add_complement (hm : 0 < m) (n : ℕ) : residue m (n + (m - residue m n)) = m := by
  rw [← residue_residue_add, Nat.add_sub_cancel' (residue_le hm n)]
  exact residue_of_le le_rfl

/-! ## Folding -/

theorem fold_modEq (m n : ℕ) : fold m n ≡ n [MOD m] := by
  have h : n = fold m n + m * (n / (m + 1)) := by
    have hdiv := Nat.div_add_mod n (m + 1)
    unfold fold
    linarith [Nat.succ_mul m (n / (m + 1))]
  conv_rhs => rw [h]
  exact (Nat.add_mul_mod_self_left (fold m n) m _).symm

theorem fold_eq_zero_iff : fold m n = 0 ↔ n = 0 := by
  unfold fold
  constructor
  · intro h
    rw [← Nat.div_add_mod n (m + 1)]
    rw [Nat.eq_zero_of_add_eq_zero_right h, Nat.eq_zero_of_add_eq_zero_left h, mul_zero]
  · rintro rfl
    simp

theorem residue_fold (m n : ℕ) : residue m (fold m n) = residue m n :=
  residue_congr (fold_modEq m n) fold_eq_zero_iff

theorem fold_of_le (h : n ≤ m) : fold m n = n := by
  unfold fold
  rw [Nat.div_eq_of_lt (by omega), Nat.mod_eq_of_lt (by omega), zero_add]

/-- One fold leaves a carry of at most one, a second one none. -/
theorem fold_fold_le (h : n < (m + 1) * (m + 1)) : fold m (fold m n) ≤ m := by
  have hhigh : n / (m + 1) < m + 1 := Nat.div_lt_of_lt_mul h
  have hlow : n % (m + 1) < m + 1 := Nat.mod_lt _ (by omega)
  have hsum : fold m n ≤ m + m := by
    unfold fold
    omega
  by_cases hle : fold m n ≤ m
  · rwa [fold_of_le hle]
  · have hdiv : fold m n / (m + 1) = 1 := Nat.div_eq_of_lt_le (by omega) (by omega)
    have hmod := Nat.div_add_mod (fold m n) (m + 1)
    rw [hdiv] at hmod
    rw [fold, hdiv]
    omega

/-- From two folds on, the result is the word that stands for the number. -/
theorem iterate_fold (hm : 0 < m) (h : n < (m + 1) * (m + 1)) (hk : 2 ≤ k) :
    (fold m)^[k] n = residue m n := by
  induction k, hk using Nat.le_induction with
  | base =>
    have hle := fold_fold_le h
    calc (fold m)^[2] n = fold m (fold m n) := rfl
      _ = residue m (fold m (fold m n)) := (residue_of_le hle).symm
      _ = residue m n := by rw [residue_fold, residue_fold]
  | succ k hk ih =>
    rw [Function.iterate_succ_apply', ih, fold_of_le (residue_le hm n)]

end NetProg.Lib
