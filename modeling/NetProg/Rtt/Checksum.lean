import NetProg.Lib.OnesComplement
import NetProg.Rtt.Proto

/-!
# The ICMP checksum

`in_cksum` adds the 16-bit words of a message in a 32-bit accumulator, folds the carries
into the low half twice, and returns the complement of the low half. The words are as they
stand in memory, lowest byte first. `sendV4` stores the result in the message it summed.

The results of the additions before they are cut to 32 bits are logged in `totals`.
-/

namespace NetProg.Rtt

open Lib

/-! ## `in_cksum` -/

/-- The variable `sum`, with a log of the additions. -/
structure Acc where
  sum : UInt32
  totals : List ℕ

/-- `sum += v`. -/
def Acc.add (s : Acc) (v : UInt32) : Acc :=
  ⟨s.sum + v, (s.sum.toNat + v.toNat) :: s.totals⟩

/-- `*w`. -/
def loadWord (lo hi : UInt8) : UInt16 :=
  lo.toUInt16 + 256 * hi.toUInt16

/-- The loop over the words. `answer` is 0 when the odd byte is stored in its low half. -/
def sumWords (s : Acc) : List UInt8 → Acc
  | lo :: hi :: left => sumWords (s.add (loadWord lo hi).toUInt32) left
  | [odd] => s.add odd.toUInt32
  | [] => s

/-- `sum = (sum >> 16) + (sum & 0xffff)`. -/
def Acc.fold (s : Acc) : Acc :=
  (Acc.mk (s.sum >>> 16) s.totals).add (s.sum &&& 0xffff)

/-- `sum += (sum >> 16)`. -/
def Acc.addCarry (s : Acc) : Acc :=
  s.add (s.sum >>> 16)

/-- `sum` at the end of `in_cksum`. -/
def cksumAcc (data : List UInt8) : Acc :=
  (sumWords ⟨0, []⟩ data).fold.addCarry

/-- `in_cksum`. -/
def inCksum (data : List UInt8) : UInt16 :=
  (~~~(cksumAcc data).sum).toUInt16

/-! ## The sum of the words -/

/-- The 16-bit words of a message. An odd last byte is padded by zero. -/
def words16 : List UInt8 → List ℕ
  | lo :: hi :: left => (lo.toNat + 256 * hi.toNat) :: words16 left
  | [odd] => [odd.toNat]
  | [] => []

theorem le_of_mem_words16 {data : List UInt8} : ∀ w ∈ words16 data, w ≤ 65535 := by
  induction data using words16.induct with
  | case1 lo hi left ih =>
    refine List.forall_mem_cons.2 ⟨?_, ih⟩
    have := lo.toNat_lt
    have := hi.toNat_lt
    omega
  | case2 odd =>
    refine List.forall_mem_singleton.2 ?_
    have := odd.toNat_lt
    omega
  | case3 => exact List.forall_mem_nil _

theorem length_words16 (data : List UInt8) : 2 * (words16 data).length ≤ data.length + 1 := by
  induction data using words16.induct with
  | case1 lo hi left ih =>
    simp only [words16, List.length_cons]
    omega
  | case2 odd => simp [words16]
  | case3 => simp [words16]

/-- The sum of the words of a message of up to 131074 bytes fits into 32 bits. -/
theorem sum_words16_lt {data : List UInt8} (hlen : data.length ≤ 131074) :
    (words16 data).sum < 4294967296 := by
  have hsum := List.sum_le_card_nsmul (words16 data) 65535 le_of_mem_words16
  have hwords := length_words16 data
  rw [smul_eq_mul] at hsum
  omega

/-! ## The accumulator -/

/-- The additions so far did not overflow. -/
def Acc.Fits (s : Acc) : Prop :=
  ∀ n ∈ s.totals, n < 4294967296

theorem toNat_loadWord (lo hi : UInt8) :
    (loadWord lo hi).toUInt32.toNat = lo.toNat + 256 * hi.toNat := by
  have hlo := lo.toNat_lt
  have hhi := hi.toNat_lt
  simp only [loadWord, UInt16.toNat_toUInt32, UInt16.toNat_add, UInt16.toNat_mul,
    UInt8.toNat_toUInt16, UInt16.reduceToNat]
  omega

/-- An addition that fits is exact. -/
theorem Acc.add_spec {s : Acc} (hs : s.Fits) {v : UInt32}
    (h : s.sum.toNat + v.toNat < 4294967296) :
    (s.add v).Fits ∧ (s.add v).sum.toNat = s.sum.toNat + v.toNat := by
  refine ⟨List.forall_mem_cons.2 ⟨h, hs⟩, ?_⟩
  rw [Acc.add, UInt32.toNat_add]
  exact Nat.mod_eq_of_lt h

theorem sumWords_spec {data : List UInt8} {s : Acc} (hs : s.Fits)
    (h : s.sum.toNat + (words16 data).sum < 4294967296) :
    (sumWords s data).Fits ∧
      (sumWords s data).sum.toNat = s.sum.toNat + (words16 data).sum := by
  induction data using words16.induct generalizing s with
  | case1 lo hi left ih =>
    rw [words16, List.sum_cons, ← toNat_loadWord] at h ⊢
    obtain ⟨hfits, hsum⟩ := Acc.add_spec hs (v := (loadWord lo hi).toUInt32) (by omega)
    obtain ⟨hfits', hsum'⟩ := ih hfits (by omega)
    rw [sumWords]
    exact ⟨hfits', by omega⟩
  | case2 odd =>
    have hodd : odd.toUInt32.toNat = (words16 [odd]).sum := by simp [words16]
    rw [sumWords, ← hodd]
    exact Acc.add_spec hs (by rwa [hodd])
  | case3 => exact ⟨hs, rfl⟩

theorem Acc.fold_spec {s : Acc} (hs : s.Fits) :
    s.fold.Fits ∧ s.fold.sum.toNat = Lib.fold 65535 s.sum.toNat := by
  have hhigh : (s.sum >>> 16).toNat = s.sum.toNat / 65536 := by
    simp [Nat.shiftRight_eq_div_pow]
  have hlow : (s.sum &&& 0xffff).toNat = s.sum.toNat % 65536 := by
    rw [UInt32.toNat_and]
    exact Nat.and_two_pow_sub_one_eq_mod s.sum.toNat 16
  have hlt := s.sum.toNat_lt
  obtain ⟨hfits, hsum⟩ := Acc.add_spec (s := ⟨s.sum >>> 16, s.totals⟩) hs (v := s.sum &&& 0xffff)
    (by simp only [hhigh, hlow]; omega)
  refine ⟨hfits, ?_⟩
  rw [Acc.fold, hsum, hhigh, hlow]
  rfl

/-- The second fold leaves the high half, which is cut off. -/
theorem Acc.addCarry_spec {s : Acc} (hs : s.Fits) (h : s.sum.toNat ≤ 131070) :
    s.addCarry.Fits ∧ s.addCarry.sum.toNat % 65536 = Lib.fold 65535 s.sum.toNat % 65536 := by
  have hhigh : (s.sum >>> 16).toNat = s.sum.toNat / 65536 := by
    simp [Nat.shiftRight_eq_div_pow]
  obtain ⟨hfits, hsum⟩ := Acc.add_spec hs (v := s.sum >>> 16) (by omega)
  refine ⟨hfits, ?_⟩
  rw [Acc.addCarry, hsum, hhigh, Lib.fold]
  omega

theorem cksumAcc_spec {data : List UInt8} (hlen : data.length ≤ 131074) :
    (cksumAcc data).Fits ∧
      (cksumAcc data).sum.toNat % 65536 = residue 65535 (words16 data).sum := by
  have hlt := sum_words16_lt hlen
  obtain ⟨hfits, hsum⟩ := sumWords_spec (s := ⟨0, []⟩) (List.forall_mem_nil _)
    (by simpa using hlt)
  obtain ⟨hfits₁, hsum₁⟩ := Acc.fold_spec hfits
  rw [hsum, show (0 : UInt32).toNat = 0 from rfl, zero_add] at hsum₁
  have hcarry : Lib.fold 65535 (words16 data).sum ≤ 131070 := by
    unfold Lib.fold
    omega
  obtain ⟨hfits₂, hsum₂⟩ := Acc.addCarry_spec hfits₁ (hsum₁ ▸ hcarry)
  refine ⟨hfits₂, ?_⟩
  have hiter : Lib.fold 65535 (Lib.fold 65535 (words16 data).sum) =
      residue 65535 (words16 data).sum := iterate_fold (k := 2) (by decide) hlt le_rfl
  have hle := residue_le (m := 65535) (by decide) (words16 data).sum
  rw [cksumAcc, hsum₂, hsum₁, hiter]
  omega

theorem toNat_inCksum {data : List UInt8} (hlen : data.length ≤ 131074) :
    (inCksum data).toNat = 65535 - residue 65535 (words16 data).sum := by
  have hlt := (cksumAcc data).sum.toNat_lt
  have hsize : UInt32.size = 4294967296 := rfl
  rw [inCksum, ← (cksumAcc_spec hlen).2, UInt32.toNat_toUInt16, UInt32.toNat_not]
  omega

/-! ## A message with its checksum -/

/-- Store a number in the word `j` of a message. -/
def storeWord (data : List UInt8) (j : ℕ) (v : UInt16) : List UInt8 :=
  (data.set (2 * j) v.toUInt8).set (2 * j + 1) (v >>> 8).toUInt8

@[simp] theorem length_storeWord (data : List UInt8) (j : ℕ) (v : UInt16) :
    (storeWord data j v).length = data.length := by
  simp [storeWord]

theorem sum_words16_storeWord {data : List UInt8} {j : ℕ} (hlo : data[2 * j]? = some 0)
    (hhi : data[2 * j + 1]? = some 0) (v : UInt16) :
    (words16 (storeWord data j v)).sum = (words16 data).sum + v.toNat := by
  induction data using words16.induct generalizing j with
  | case1 lo hi left ih =>
    cases j with
    | zero =>
      obtain rfl : lo = 0 := by simpa using hlo
      obtain rfl : hi = 0 := by simpa using hhi
      have hv := v.toNat_lt
      have hhalves : v.toUInt8.toNat + 256 * (v >>> 8).toUInt8.toNat = v.toNat := by
        simp only [UInt16.toNat_toUInt8, UInt16.toNat_shiftRight, UInt16.reduceToNat,
          Nat.shiftRight_eq_div_pow, Nat.reduceMod, Nat.reducePow]
        omega
      simp only [storeWord, words16, List.set_cons_zero, List.set_cons_succ, Nat.mul_zero,
        List.sum_cons, hhalves]
      simp [add_comm]
    | succ j =>
      have hstep := ih (j := j) (by simpa [Nat.mul_succ] using hlo)
        (by simpa [Nat.mul_succ] using hhi)
      have hcons : storeWord (lo :: hi :: left) (j + 1) v = lo :: hi :: storeWord left j v := rfl
      rw [hcons, words16, words16, List.sum_cons, List.sum_cons, hstep]
      omega
  | case2 odd => simp at hhi
  | case3 => simp at hlo

/-- A message whose checksum field was zero sums to zero when its checksum is stored in it. -/
theorem inCksum_storeWord {data : List UInt8} (hlen : data.length ≤ 131074) {j : ℕ}
    (hlo : data[2 * j]? = some 0) (hhi : data[2 * j + 1]? = some 0) :
    inCksum (storeWord data j (inCksum data)) = 0 := by
  refine UInt16.toNat_inj.1 ?_
  rw [toNat_inCksum (by simpa using hlen), sum_words16_storeWord hlo hhi, toNat_inCksum hlen,
    residue_add_complement (by decide)]
  rfl

/-- For every message of up to 131074 bytes, `in_cksum` returns the complement of the one's
complement sum of its words, no addition overflows and more folds would change nothing. If
a word of the message is zero, storing the result there makes `in_cksum` return 0. -/
theorem inCksum_correct (data : List UInt8) (hlen : data.length ≤ 131074) :
    (inCksum data).toNat = 65535 - onesSum 65535 (words16 data) ∧
      (∀ n ∈ (cksumAcc data).totals, n < 2 ^ 32) ∧
      (∀ k ≥ 2, (inCksum data).toNat = 65535 - (Lib.fold 65535)^[k] (words16 data).sum) ∧
      ∀ j, data[2 * j]? = some 0 → data[2 * j + 1]? = some 0 →
        inCksum (storeWord data j (inCksum data)) = 0 := by
  refine ⟨?_, (cksumAcc_spec hlen).1, fun k hk => ?_, fun j => inCksum_storeWord hlen⟩
  · rw [onesSum_eq (by decide) le_of_mem_words16, toNat_inCksum hlen]
  · rw [iterate_fold (by decide) (sum_words16_lt hlen) hk, toNat_inCksum hlen]

/-- Words with carries out of the first fold, and an odd byte. -/
theorem inCksum_correct_carries :
    inCksum [0xff, 0xff, 0, 0, 0xff, 0xff, 1] = 0xfffe ∧
      inCksum (storeWord [0xff, 0xff, 0, 0, 0xff, 0xff, 1] 1 0xfffe) = 0 :=
  have hall := inCksum_correct [0xff, 0xff, 0, 0, 0xff, 0xff, 1] (by decide)
  have hcksum : inCksum [0xff, 0xff, 0, 0, 0xff, 0xff, 1] = 0xfffe := by decide
  ⟨hcksum, hcksum ▸ hall.2.2.2 1 rfl rfl⟩

/-! ## The message of `sendV4` -/

/-- The `len` bytes of a number, lowest first. -/
def bytesLe (len n : ℕ) : List UInt8 :=
  (List.range len).map fun k => UInt8.ofNat (n / 256 ^ k)

/-- The echo request in `send_buf`, with its checksum field zero. -/
def Request.message (r : Request) : List UInt8 :=
  [UInt8.ofNat r.type, UInt8.ofNat r.code, 0, 0] ++ bytesLe 2 r.id ++ bytesLe 2 r.seq.toNat ++
    bytesLe 8 (r.time.sec % 2 ^ 64).toNat ++ bytesLe 8 (r.time.usec % 2 ^ 64).toNat ++
    List.replicate (dataLen - 16) 0xa5

/-- What `sendV4` sends sums to zero. -/
theorem inCksum_message (r : Request) :
    inCksum (storeWord r.message 1 (inCksum r.message)) = 0 := by
  have hlen : r.message.length = 64 := by simp [Request.message, bytesLe, dataLen]
  exact inCksum_storeWord (by omega) rfl rfl

end NetProg.Rtt
