import NetProg.Rtt.Proto

/-!
# The round trip time

`procV4` and `procV6` subtract the time in the reply from the time of arrival with `tv_sub`
and store `tv_sec * 1000 + tv_usec / 1000`. `tv_sub` is exact when the difference fits into a
`timeval`. The division is one of integers, so that the value that is stored, and printed with
two decimals, is the number of whole milliseconds, as far as a `long` and a `double` have it.
-/

namespace NetProg.Rtt

/-! ## Times in microseconds -/

/-- The time in microseconds. -/
def Timeval.micros (tv : Timeval) : ℤ :=
  tv.sec * 1000000 + tv.usec

/-- The microseconds are less than a second. -/
def Timeval.Normal (tv : Timeval) : Prop :=
  0 ≤ tv.usec ∧ tv.usec < 1000000

instance (tv : Timeval) : Decidable tv.Normal :=
  inferInstanceAs (Decidable (_ ∧ _))

/-- What `tv_sub` leaves of two normal times : the fields of the difference, normalised, with
seconds that wrap around. -/
theorem tvSub_cases {out inn : Timeval} (hout : out.Normal) (hinn : inn.Normal) :
    (tvSub out inn).Normal ∧ Signed64 (tvSub out inn).sec ∧
      (∃ k, (tvSub out inn).micros = out.micros - inn.micros + 2 ^ 64 * 1000000 * k) ∧
      (1000 ∣ (tvSub out inn).usec ↔ 1000 ∣ out.usec - inn.usec) := by
  obtain ⟨hout, hout'⟩ := hout
  obtain ⟨hinn, hinn'⟩ := hinn
  have husec : wrap64 (out.usec - inn.usec) = out.usec - inn.usec :=
    wrap64_of_signed ⟨by omega, by omega⟩
  unfold tvSub Timeval.Normal Timeval.micros
  rw [husec]
  dsimp only
  split
  · obtain ⟨j, hj, -⟩ := exists_wrap64_eq (out.sec - 1)
    obtain ⟨k, hk, hsigned⟩ := exists_wrap64_eq (wrap64 (out.sec - 1) - inn.sec)
    have hborrow : wrap64 (out.usec - inn.usec + 1000000) = out.usec - inn.usec + 1000000 :=
      wrap64_of_signed ⟨by omega, by omega⟩
    dsimp only
    rw [hborrow]
    exact ⟨by omega, hsigned, ⟨j + k, by omega⟩, by omega⟩
  · obtain ⟨k, hk, hsigned⟩ := exists_wrap64_eq (out.sec - inn.sec)
    dsimp only
    exact ⟨by omega, hsigned, ⟨k, by omega⟩, Iff.rfl⟩

/-- The milliseconds before they are stored are those of the time, rounded down, up to a multiple
of `2 ^ 64`. -/
theorem exists_wrap64_ms_eq {tv : Timeval} (h : tv.Normal) :
    ∃ k, wrap64 (wrap64 (tv.sec * 1000) + tv.usec.tdiv 1000) = tv.micros / 1000 + 2 ^ 64 * k := by
  obtain ⟨j, hj, -⟩ := exists_wrap64_eq (tv.sec * 1000)
  obtain ⟨k, hk, -⟩ := exists_wrap64_eq (wrap64 (tv.sec * 1000) + tv.usec.tdiv 1000)
  rw [Int.tdiv_eq_ediv_of_nonneg h.1] at hk ⊢
  refine ⟨j + k, ?_⟩
  unfold Timeval.micros
  omega

theorem abs_rttMs_sub_le (tv : Timeval) :
    |rttMs tv - wrap64 (wrap64 (tv.sec * 1000) + tv.usec.tdiv 1000)| ≤ 2 ^ 10 := by
  obtain ⟨-, -, hlow, hhigh⟩ := exists_wrap64_eq (wrap64 (tv.sec * 1000) + tv.usec.tdiv 1000)
  have hlt : |wrap64 (wrap64 (tv.sec * 1000) + tv.usec.tdiv 1000)| < 2 ^ (53 + 11) :=
    abs_lt.2 ⟨by omega, by omega⟩
  have hround := Lib.abs_toDouble_sub_le hlt
  unfold rttMs
  omega

/-- Whole milliseconds that a `long` and a `double` have are stored. -/
theorem rttMs_eq {tv : Timeval} (h : tv.Normal) (hsigned : Signed64 (tv.micros / 1000))
    (hdouble : Lib.IsDouble (tv.micros / 1000)) : rttMs tv = tv.micros / 1000 := by
  obtain ⟨k, hk⟩ := exists_wrap64_ms_eq h
  obtain ⟨-, -, hlow, hhigh⟩ := exists_wrap64_eq (wrap64 (tv.sec * 1000) + tv.usec.tdiv 1000)
  obtain ⟨hlow', hhigh'⟩ := hsigned
  rw [hk] at hlow hhigh
  obtain rfl : k = 0 := by omega
  rw [rttMs, hk, mul_zero, add_zero]
  exact Lib.toDouble_eq_self_iff.2 hdouble

/-- The difference of two normal times, as long as a `double` holds its milliseconds. -/
theorem rttMs_tvSub {out inn : Timeval} (hout : out.Normal) (hinn : inn.Normal)
    (hsigned : Signed64 ((out.micros - inn.micros) / 1000))
    (hdouble : Lib.IsDouble ((out.micros - inn.micros) / 1000)) :
    (tvSub out inn).micros = out.micros - inn.micros ∧
      rttMs (tvSub out inn) = (out.micros - inn.micros) / 1000 := by
  obtain ⟨hnormal, ⟨hlow, hhigh⟩, ⟨k, hk⟩, -⟩ := tvSub_cases hout hinn
  obtain ⟨hlow', hhigh'⟩ := hsigned
  have hmicros : (tvSub out inn).micros = out.micros - inn.micros := by
    obtain ⟨husec, husec'⟩ := hnormal
    unfold Timeval.micros at *
    obtain rfl : k = 0 := by omega
    omega
  refine ⟨hmicros, ?_⟩
  rw [← hmicros] at hdouble ⊢
  exact rttMs_eq hnormal (by rw [hmicros]; exact ⟨hlow', hhigh'⟩) hdouble

/-! ## What a reply stores -/

/-- The ICMP message in a packet. -/
def icmpOf : Family → Bytes → Bytes
  | .v4, ptr => ptr.drop (headLen ptr)
  | .v6, ptr => ptr

/-- `tvsend` : the time at the start of the data of the message. -/
def tvSend (fam : Family) (ptr : Bytes) : Timeval :=
  readTimeval (icmpOf fam ptr) 8

theorem procIcmp_eq_zero {reply pid : ℕ} {icmp : Bytes} {icmpLen : ℤ} {p : Proto} {tv : Timeval}
    (h : (procIcmp reply pid icmp icmpLen p tv).1 = 0) :
    (icmp 0).toNat = reply ∧ readLe icmp 4 2 = pid % 65536 ∧ 16 ≤ icmpLen ∧
      (procIcmp reply pid icmp icmpLen p tv).2 =
        p.setRtt (p.nsent - 1) (rttMs (tvSub tv (readTimeval icmp 8))) := by
  unfold procIcmp at h ⊢
  split at h
  · exact absurd h (show (-1 : ℤ) ≠ 0 by decide)
  rename_i hlen
  rw [if_neg hlen]
  split at h
  · rename_i htype
    rw [if_pos htype]
    split at h
    · exact absurd h (show (-1 : ℤ) ≠ 0 by decide)
    rename_i hid
    rw [if_neg hid]
    split at h
    · exact absurd h (show (-1 : ℤ) ≠ 0 by decide)
    rename_i hdata
    rw [if_neg hdata]
    exact ⟨htype, not_not.1 hid, by omega, rfl⟩
  · exact absurd h (show (-2 : ℤ) ≠ 0 by decide)

/-- A packet that `fproc` returns 0 for stores the difference of the times. -/
theorem fproc_eq_zero {fam : Family} {pid : ℕ} {ptr : Bytes} {len : ℤ} {p : Proto}
    {tv : Timeval} (h : (fproc fam pid ptr len p tv).1 = 0) :
    (fproc fam pid ptr len p tv).2 =
      p.setRtt (p.nsent - 1) (rttMs (tvSub tv (tvSend fam ptr))) := by
  cases fam with
  | v4 =>
    simp only [fproc, procV4] at h ⊢
    split at h
    · exact absurd h (show (-1 : ℤ) ≠ 0 by decide)
    · rename_i hproto
      rw [if_neg hproto]
      exact (procIcmp_eq_zero h).2.2.2
  | v6 => exact (procIcmp_eq_zero h).2.2.2

/-- `tv_sub` leaves the exact difference of the times, normalised, and the round trip time
that is stored is this difference in milliseconds. -/
structure ExactRtt (fam : Family) (pid : ℕ) (ptr : Bytes) (len : ℤ) (p : Proto)
    (tvrecv : Timeval) : Prop where
  normal : (tvSub tvrecv (tvSend fam ptr)).Normal
  micros : (tvSub tvrecv (tvSend fam ptr)).micros = tvrecv.micros - (tvSend fam ptr).micros
  rtt : ((fproc fam pid ptr len p tvrecv).2.rtt (p.nsent - 1) : ℚ) =
    ((tvrecv.micros - (tvSend fam ptr).micros : ℤ) : ℚ) / 1000

/-- A difference that is stored exactly is one of whole milliseconds that a `long` and a
`double` have. -/
theorem ms_of_rttMs_eq {tv : Timeval} (h : tv.Normal) (heq : 1000 * rttMs tv = tv.micros) :
    1000 ∣ tv.usec ∧ Signed64 (tv.micros / 1000) ∧ Lib.IsDouble (tv.micros / 1000) := by
  obtain ⟨k, hk⟩ := exists_wrap64_ms_eq h
  obtain ⟨-, -, hlow, hhigh⟩ := exists_wrap64_eq (wrap64 (tv.sec * 1000) + tv.usec.tdiv 1000)
  have hnear := abs_le.1 (abs_rttMs_sub_le tv)
  have hms : rttMs tv = tv.micros / 1000 := by omega
  rw [hms] at hnear
  rw [hk] at hlow hhigh hnear
  obtain rfl : k = 0 := by omega
  rw [rttMs, hk, mul_zero, add_zero] at hms
  refine ⟨?_, ⟨by omega, by omega⟩, Lib.toDouble_eq_self_iff.1 hms⟩
  unfold Timeval.micros at heq
  omega

/-- For all normalised times and on both paths, the round trip time is exact if and only if
the microseconds of the two times differ by a multiple of 1000, and the milliseconds of the
difference fit into a `long` and are a `double`. -/
theorem exactRtt_iff {fam : Family} {pid : ℕ} {ptr : Bytes} {len : ℤ} {p : Proto}
    {tvrecv : Timeval} (hreply : (fproc fam pid ptr len p tvrecv).1 = 0)
    (hrecv : tvrecv.Normal) (hsend : (tvSend fam ptr).Normal) :
    ExactRtt fam pid ptr len p tvrecv ↔ 1000 ∣ tvrecv.usec - (tvSend fam ptr).usec ∧
      Signed64 ((tvrecv.micros - (tvSend fam ptr).micros) / 1000) ∧
      Lib.IsDouble ((tvrecv.micros - (tvSend fam ptr).micros) / 1000) := by
  obtain ⟨hnormal, -, -, hdvd⟩ := tvSub_cases hrecv hsend
  have hvalue : ((fproc fam pid ptr len p tvrecv).2.rtt (p.nsent - 1) : ℚ) =
      ((tvrecv.micros - (tvSend fam ptr).micros : ℤ) : ℚ) / 1000 ↔
        1000 * rttMs (tvSub tvrecv (tvSend fam ptr)) =
          tvrecv.micros - (tvSend fam ptr).micros := by
    rw [fproc_eq_zero hreply, Proto.setRtt_rtt, Function.update_self, eq_div_iff (by norm_num),
      mul_comm]
    norm_cast
  constructor
  · rintro ⟨-, hmicros, hrtt⟩
    rw [← hdvd, ← hmicros]
    exact ms_of_rttMs_eq hnormal ((hvalue.1 hrtt).trans hmicros.symm)
  · rintro ⟨husec, hsigned, hdouble⟩
    obtain ⟨hmicros, hms⟩ := rttMs_tvSub hrecv hsend hsigned hdouble
    refine ⟨hnormal, hmicros, hvalue.2 ?_⟩
    rw [hms]
    unfold Timeval.micros
    omega

/-- An IPv4 echo reply to the process 7 with the time 1.999000. -/
def timedReply : List UInt8 :=
  [0x45, 0, 0, 84, 0, 0, 0, 0, 64, 1, 0, 0, 127, 0, 0, 1, 127, 0, 0, 1] ++
    [0, 0, 0, 0, 7, 0, 0, 0] ++ [1, 0, 0, 0, 0, 0, 0, 0] ++ [0x58, 0x3e, 0x0f, 0, 0, 0, 0, 0] ++
    List.replicate 40 0xa5

/-- It arrives at 3.001000, two milliseconds and a second later. -/
theorem exactRtt_timedReply :
    ExactRtt .v4 7 (fun i => timedReply.getD i 0) 84 { initIp .v4 with nsent := 1 } ⟨3, 1000⟩ :=
  (exactRtt_iff (by decide) (by decide) (by decide)).2
    ⟨by decide, by decide, Lib.isDouble_of_abs_lt (by decide)⟩

/-- It arrives at 1.999999, almost a millisecond later, and the value stored is 0. -/
theorem not_exactRtt_timedReply :
    (fproc .v4 7 (fun i => timedReply.getD i 0) 84 { initIp .v4 with nsent := 1 }
      ⟨1, 999999⟩).2.rtt 0 = 0 ∧
    (tvSend .v4 fun i => timedReply.getD i 0).micros = 1999000 ∧
      ¬ExactRtt .v4 7 (fun i => timedReply.getD i 0) 84 { initIp .v4 with nsent := 1 }
        ⟨1, 999999⟩ := by
  have hvalue : (fproc .v4 7 (fun i => timedReply.getD i 0) 84 { initIp .v4 with nsent := 1 }
    ⟨1, 999999⟩).2.rtt 0 = 0 := by decide
  have hsend : (tvSend .v4 fun i => timedReply.getD i 0).micros = 1999000 := by decide
  refine ⟨hvalue, hsend, fun h => ?_⟩
  have hrtt := h.rtt
  rw [hsend, show (1 : ℤ) - 1 = 0 from rfl, hvalue] at hrtt
  norm_num [Timeval.micros] at hrtt

end NetProg.Rtt
