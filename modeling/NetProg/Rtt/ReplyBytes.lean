import NetProg.Rtt.RoundTrip
import NetProg.Rtt.Scheduler

/-!
# The bytes a reply is read from

`procV4` and `procV6` get the receive buffer and the number of bytes in it. They check that
an echo reply has 16 bytes, but the time in it is a `struct timeval` of 16 bytes behind the
ICMP header of 8, so 24 are read. `procV4` reads the header length and the protocol of the
IP header before it looks at the length at all.

`fromReceived_iff` says for which packets the result depends on the received bytes only.
-/

namespace NetProg.Rtt

/-- The buffers have the same first `n` bytes. -/
def Agree (n : ℕ) (ptr ptr' : Bytes) : Prop :=
  ∀ i < n, ptr' i = ptr i

/-- The offset of the ICMP message in a packet. -/
def icmpOffset : Family → Bytes → ℕ
  | .v4, ptr => headLen ptr
  | .v6, _ => 0

/-- The return value and the round trip times depend on the `n` received bytes only. -/
def FromReceived (fam : Family) (pid : ℕ) (ptr : Bytes) (n : ℕ) (p : Proto) (tv : Timeval) :
    Prop :=
  ∀ ptr', Agree n ptr ptr' →
    (fproc fam pid ptr' n p tv).1 = (fproc fam pid ptr n p tv).1 ∧
      (fproc fam pid ptr' n p tv).2.rtt = (fproc fam pid ptr n p tv).2.rtt

/-- An echo reply to this process whose time is cut off. -/
def CutOff (reply pid : ℕ) (icmp : Bytes) (icmpLen : ℤ) : Prop :=
  (icmp 0).toNat = reply ∧ readLe icmp 4 2 = pid % 65536 ∧ 16 ≤ icmpLen ∧ icmpLen < 24

/-- The packet reaches as far as `fproc` reads. A packet that ends before the protocol byte
is rejected in any case if its header length leaves less than an ICMP header, or if its
first byte is 0. -/
def ReachesFar : Family → ℕ → Bytes → ℕ → Prop
  | .v4, pid, ptr, n =>
    n < 10 ∧ (n < 8 ∨ headLen ptr ≠ 0 ∨ (ptr 0).toNat = 0) ∨
      10 ≤ n ∧ ((ptr 9).toNat ≠ 1 ∨
        ¬CutOff (echoReply .v4) pid (ptr.drop (headLen ptr)) (n - headLen ptr))
  | .v6, pid, ptr, n => ¬CutOff (echoReply .v6) pid ptr n

instance (reply pid : ℕ) (icmp : Bytes) (icmpLen : ℤ) : Decidable (CutOff reply pid icmp icmpLen) :=
  inferInstanceAs (Decidable (_ ∧ _))

instance : ∀ fam pid ptr n, Decidable (ReachesFar fam pid ptr n)
  | .v4, _, _, _ => inferInstanceAs (Decidable (_ ∨ _))
  | .v6, _, _, _ => inferInstanceAs (Decidable (¬CutOff ..))

/-! ## Reading -/

theorem readLe_congr {ptr ptr' : Bytes} {off len : ℕ}
    (h : ∀ i, off ≤ i → i < off + len → ptr' i = ptr i) :
    readLe ptr' off len = readLe ptr off len := by
  induction len generalizing off with
  | zero => rfl
  | succ len ih =>
    rw [readLe, readLe, h off le_rfl (by omega), ih fun i hi hi' => h i (by omega) (by omega)]

theorem readTimeval_congr {ptr ptr' : Bytes} {off : ℕ}
    (h : ∀ i, off ≤ i → i < off + 16 → ptr' i = ptr i) :
    readTimeval ptr' off = readTimeval ptr off := by
  rw [readTimeval, readTimeval, readLe_congr fun i hi hi' => h i hi (by omega),
    readLe_congr fun i hi hi' => h i (by omega) (by omega)]

/-- A byte behind the place from which the rest is taken. -/
theorem drop_update (ptr : Bytes) (n j : ℕ) (b : UInt8) :
    Bytes.drop (Function.update ptr (n + j) b) n = Function.update (ptr.drop n) j b := by
  funext i
  by_cases hi : i = j
  · subst hi
    rw [Bytes.drop, Function.update_self, Function.update_self]
  · rw [Bytes.drop, Function.update_of_ne (by omega), Function.update_of_ne hi]
    rfl

theorem readLe_succ_last (ptr : Bytes) (off len : ℕ) :
    readLe ptr off (len + 1) = readLe ptr off len + 256 ^ len * (ptr (off + len)).toNat := by
  induction len generalizing off with
  | zero => simp [readLe]
  | succ len ih =>
    rw [readLe, ih, readLe, show off + 1 + len = off + (len + 1) by omega, pow_succ]
    ring

theorem readLe_lt (ptr : Bytes) (off len : ℕ) : readLe ptr off len < 256 ^ len := by
  induction len with
  | zero => exact Nat.one_pos
  | succ len ih =>
    have hbyte := (ptr (off + len)).toNat_lt
    rw [readLe_succ_last, pow_succ]
    nlinarith [Nat.mul_le_mul_left (256 ^ len) (Nat.le_of_lt_succ hbyte)]

/-- The result on an ICMP message whose time is not cut off. -/
theorem procIcmp_congr {reply pid : ℕ} {icmp icmp' : Bytes} {icmpLen : ℤ} (p : Proto)
    (tv : Timeval) (h : ∀ i : ℕ, i < icmpLen → icmp' i = icmp i)
    (hcut : ¬CutOff reply pid icmp icmpLen) :
    procIcmp reply pid icmp' icmpLen p tv = procIcmp reply pid icmp icmpLen p tv := by
  unfold procIcmp
  by_cases hlen : icmpLen < 8
  · rw [if_pos hlen, if_pos hlen]
  rw [if_neg hlen, if_neg hlen, h 0 (by omega), readLe_congr fun i _ hi => h i (by omega)]
  by_cases htype : (icmp 0).toNat = reply
  case neg => rw [if_neg htype, if_neg htype]
  rw [if_pos htype, if_pos htype]
  by_cases hid : readLe icmp 4 2 ≠ pid % 65536
  · rw [if_pos hid, if_pos hid]
  rw [if_neg hid, if_neg hid]
  by_cases hdata : icmpLen < 16
  · rw [if_pos hdata, if_pos hdata]
  have hwhole : 24 ≤ icmpLen := by
    by_contra hshort
    exact hcut ⟨htype, not_not.1 hid, by omega, by omega⟩
  rw [if_neg hdata, if_neg hdata, readTimeval_congr fun i _ hi => h i (by omega)]

/-! ## A time that is cut off -/

/-- The milliseconds of any two times, before they are stored. `b` is the second that is
borrowed. -/
theorem exists_ms_tvSub (out inn : Timeval) : ∃ u b j k, Signed64 u ∧ 0 ≤ b ∧ b ≤ 1 ∧
    u = out.usec - inn.usec + 1000000 * b + 2 ^ 64 * j ∧
    wrap64 (wrap64 ((tvSub out inn).sec * 1000) + (tvSub out inn).usec.tdiv 1000) =
      1000 * (out.sec - inn.sec - b) + u.tdiv 1000 + 2 ^ 64 * k := by
  obtain ⟨j, hj, hsigned⟩ := exists_wrap64_eq (out.usec - inn.usec)
  have hms : ∀ sec usec : ℤ, ∃ k, wrap64 (wrap64 (sec * 1000) + usec) =
      sec * 1000 + usec + 2 ^ 64 * k := by
    intro sec usec
    obtain ⟨m, hm, -⟩ := exists_wrap64_eq (sec * 1000)
    obtain ⟨k, hk, -⟩ := exists_wrap64_eq (wrap64 (sec * 1000) + usec)
    exact ⟨m + k, by omega⟩
  unfold tvSub
  dsimp only
  split
  · obtain ⟨l, hl, -⟩ := exists_wrap64_eq (out.sec - 1)
    obtain ⟨m, hm, -⟩ := exists_wrap64_eq (wrap64 (out.sec - 1) - inn.sec)
    obtain ⟨hlow, hhigh⟩ := hsigned
    have husec : wrap64 (wrap64 (out.usec - inn.usec) + 1000000) =
        wrap64 (out.usec - inn.usec) + 1000000 := wrap64_of_signed ⟨by omega, by omega⟩
    dsimp only
    rw [husec]
    obtain ⟨k, hk⟩ := hms (wrap64 (wrap64 (out.sec - 1) - inn.sec))
      ((wrap64 (out.usec - inn.usec) + 1000000).tdiv 1000)
    exact ⟨wrap64 (out.usec - inn.usec) + 1000000, 1, j, 1000 * (l + m) + k,
      ⟨by omega, by omega⟩, by decide, by decide, by omega, by omega⟩
  · obtain ⟨m, hm, -⟩ := exists_wrap64_eq (out.sec - inn.sec)
    obtain ⟨k, hk⟩ := hms (wrap64 (out.sec - inn.sec)) ((wrap64 (out.usec - inn.usec)).tdiv 1000)
    dsimp only
    exact ⟨wrap64 (out.usec - inn.usec), 0, j, 1000 * m + k, hsigned, by decide, by decide,
      by omega, by omega⟩

/-- Two times that are `2 ^ 56` microseconds apart give different round trip times, although these
wrap around and are rounded. -/
theorem rttMs_tvSub_ne (out : Timeval) (sec usec : ℤ) :
    rttMs (tvSub out ⟨sec, usec⟩) ≠ rttMs (tvSub out ⟨sec, usec + 2 ^ 56⟩) := by
  obtain ⟨u, b, j, k, ⟨hlow, hhigh⟩, hb, hb', hu, hms⟩ := exists_ms_tvSub out ⟨sec, usec⟩
  obtain ⟨v, c, i, l, ⟨hlow', hhigh'⟩, hc, hc', hv, hms'⟩ :=
    exists_ms_tvSub out ⟨sec, usec + 2 ^ 56⟩
  have hnear := abs_le.1 (abs_rttMs_sub_le (tvSub out ⟨sec, usec⟩))
  have hnear' := abs_le.1 (abs_rttMs_sub_le (tvSub out ⟨sec, usec + 2 ^ 56⟩))
  rw [hms] at hnear
  rw [hms'] at hnear'
  have hdiv (w : ℤ) : w - 1000 < 1000 * w.tdiv 1000 ∧ 1000 * w.tdiv 1000 < w + 1000 := by
    have hsum := Int.mul_tdiv_add_tmod w 1000
    have hlow := Int.lt_tmod_of_pos w (show (0 : ℤ) < 1000 by decide)
    have hhigh := Int.tmod_lt_of_pos w (show (0 : ℤ) < 1000 by decide)
    exact ⟨by omega, by omega⟩
  obtain ⟨hu', hu''⟩ := hdiv u
  obtain ⟨hv', hv''⟩ := hdiv v
  dsimp only at *
  intro heq
  rw [heq] at hnear
  -- the microseconds differ by `2 ^ 56` or by `2 ^ 56 - 2 ^ 64`, and a thousandth of neither is
  -- near a multiple of `2 ^ 64`
  have hwrap : j = i ∨ j + 1 = i := by omega
  omega

/-- Two values of the last byte of the time give times that are too far apart for the round
trip time to be the same. -/
theorem exists_rttMs_ne (icmp : Bytes) (tv : Timeval) (v : ℤ) :
    ∃ b : UInt8, rttMs (tvSub tv (readTimeval (Function.update icmp 23 b) 8)) ≠ v := by
  have hread : ∀ b : UInt8, readTimeval (Function.update icmp 23 b) 8 =
      ⟨toSigned (readLe icmp 8 8), toSigned (readLe icmp 16 7 + 256 ^ 7 * b.toNat)⟩ := by
    intro b
    have hsec : readLe (Function.update icmp 23 b) 8 8 = readLe icmp 8 8 :=
      readLe_congr fun i _ hi => Function.update_of_ne (by omega) ..
    have husec : readLe (Function.update icmp 23 b) 16 7 = readLe icmp 16 7 :=
      readLe_congr fun i _ hi => Function.update_of_ne (by omega) ..
    have hlast : readLe (Function.update icmp 23 b) 16 8 =
        readLe icmp 16 7 + 256 ^ 7 * b.toNat := by
      rw [readLe_succ_last, husec, Function.update_self]
    rw [readTimeval, hsec, hlast]
  have hlow := readLe_lt icmp 16 7
  have hsigned : ∀ n < 2 ^ 63, toSigned n = n := fun n hn => by
    rw [toSigned, BitVec.toInt_ofNat', Int.bmod_eq_of_le (by omega) (by omega)]
  have hzero := hread 0
  have hone := hread 1
  rw [show (0 : UInt8).toNat = 0 from rfl, hsigned (_ + 256 ^ 7 * 0) (by omega)] at hzero
  rw [show (1 : UInt8).toNat = 1 from rfl, hsigned (_ + 256 ^ 7 * 1) (by omega)] at hone
  have hfar : ((readLe icmp 16 7 + 256 ^ 7 * 1 : ℕ) : ℤ) =
      (readLe icmp 16 7 + 256 ^ 7 * 0 : ℕ) + 2 ^ 56 := by
    push_cast
    ring
  by_contra hall
  push Not at hall
  have hne := rttMs_tvSub_ne tv (toSigned (readLe icmp 8 8)) (readLe icmp 16 7 + 256 ^ 7 * 0 : ℕ)
  rw [← hfar, ← hzero, ← hone, hall 0, hall 1] at hne
  exact hne rfl

theorem procIcmp_of_cutOff {reply pid : ℕ} {icmp : Bytes} {icmpLen : ℤ} (p : Proto) (tv : Timeval)
    (h : CutOff reply pid icmp icmpLen) : procIcmp reply pid icmp icmpLen p tv =
      (0, p.setRtt (p.nsent - 1) (rttMs (tvSub tv (readTimeval icmp 8)))) := by
  obtain ⟨htype, hid, hlow, -⟩ := h
  rw [procIcmp, if_neg (by omega), if_pos htype, if_neg (not_not.2 hid), if_neg (by omega)]

/-- A byte that was not received changes the round trip time. -/
theorem exists_procIcmp_ne {reply pid : ℕ} {icmp : Bytes} {icmpLen : ℤ} (p : Proto) (tv : Timeval)
    (h : CutOff reply pid icmp icmpLen) : ∃ b : UInt8,
      (procIcmp reply pid (Function.update icmp 23 b) icmpLen p tv).2.rtt ≠
        (procIcmp reply pid icmp icmpLen p tv).2.rtt := by
  obtain ⟨b, hb⟩ := exists_rttMs_ne icmp tv (rttMs (tvSub tv (readTimeval icmp 8)))
  have hid : readLe (Function.update icmp 23 b) 4 2 = readLe icmp 4 2 :=
    readLe_congr fun i _ hi => Function.update_of_ne (by omega) ..
  have h' : CutOff reply pid (Function.update icmp 23 b) icmpLen :=
    ⟨h.1, hid.trans h.2.1, h.2.2⟩
  refine ⟨b, fun heq => hb ?_⟩
  rw [procIcmp_of_cutOff p tv h, procIcmp_of_cutOff p tv h'] at heq
  simpa using congrFun heq (p.nsent - 1)

/-! ## Packets that end before the protocol byte -/

theorem procV4_short {pid : ℕ} {ptr : Bytes} {n : ℕ} (p : Proto) (tv : Timeval) (hn : n < 10)
    (h : n < 8 ∨ headLen ptr ≠ 0 ∨ (ptr 0).toNat = 0) : procV4 pid ptr n p tv = (-1, p) := by
  unfold procV4
  split
  · rfl
  by_cases hlen : (n : ℤ) - headLen ptr < 8
  · rw [procIcmp, if_pos hlen]
  have hhead : headLen ptr = 0 := by
    have hfour : headLen ptr % 4 = 0 := Nat.mul_mod_left _ 4
    omega
  have hzero : (ptr 0).toNat = 0 := by omega
  rw [procIcmp, if_neg hlen, hhead]
  -- the header and the message start at the same byte
  rw [if_pos (show ((ptr.drop 0) 0).toNat = echoReply .v4 from hzero)]
  split
  · rfl
  · rw [if_pos (by push_cast; omega)]

theorem procV4_short_of_other {pid : ℕ} {ptr : Bytes} {n : ℕ} (p : Proto) (tv : Timeval)
    (hproto : (ptr 9).toNat = 1) (hn : 8 ≤ n) (hhead : headLen ptr = 0)
    (hzero : (ptr 0).toNat ≠ 0) : (procV4 pid ptr n p tv).1 = -2 := by
  rw [procV4, if_neg (not_not.2 hproto), procIcmp, hhead, if_neg (by push_cast; omega),
    if_neg (show ((ptr.drop 0) 0).toNat ≠ echoReply .v4 from hzero)]

theorem headLen_congr {ptr ptr' : Bytes} (h : ptr' 0 = ptr 0) : headLen ptr' = headLen ptr := by
  rw [headLen, headLen, h]

/-! ## Both directions -/

theorem FromReceived.of_reachesFar {fam : Family} {pid : ℕ} {ptr : Bytes} {n : ℕ} (p : Proto)
    (tv : Timeval) (h : ReachesFar fam pid ptr n) : FromReceived fam pid ptr n p tv := by
  intro ptr' hagree
  suffices heq : fproc fam pid ptr' n p tv = fproc fam pid ptr n p tv by
    rw [heq]
    exact ⟨rfl, rfl⟩
  cases fam with
  | v6 => exact procIcmp_congr p tv (fun i hi => hagree i (by exact_mod_cast hi)) h
  | v4 =>
    rcases h with ⟨hn, hshort⟩ | ⟨hn, hfar⟩
    · have hshort' : n < 8 ∨ headLen ptr' ≠ 0 ∨ (ptr' 0).toNat = 0 := by
        by_cases h8 : n < 8
        · exact .inl h8
        · have hzero := hagree 0 (by omega)
          rwa [headLen_congr hzero, hzero]
      exact (procV4_short p tv hn hshort').trans (procV4_short p tv hn hshort).symm
    · simp only [fproc, procV4]
      rw [hagree 9 (by omega), headLen_congr (hagree 0 (by omega))]
      by_cases hproto : (ptr 9).toNat ≠ 1
      · rw [if_pos hproto, if_pos hproto]
      rw [if_neg hproto, if_neg hproto]
      refine procIcmp_congr p tv (fun i hi => hagree _ ?_) (hfar.resolve_left hproto)
      omega

theorem ReachesFar.of_fromReceived {fam : Family} {pid : ℕ} {ptr : Bytes} {n : ℕ} {p : Proto}
    {tv : Timeval} (h : FromReceived fam pid ptr n p tv) : ReachesFar fam pid ptr n := by
  cases fam with
  | v6 =>
    intro hcut
    obtain ⟨b, hb⟩ := exists_procIcmp_ne p tv hcut
    have hlen := hcut.2.2.2
    exact hb (h _ fun i hi => Function.update_of_ne (by omega) ..).2
  | v4 =>
    by_contra hnot
    simp only [ReachesFar, not_or, not_and] at hnot
    obtain ⟨hshort, hfar⟩ := hnot
    rcases Nat.lt_or_ge n 10 with hn | hn
    · -- the protocol byte decides between -1 and -2
      obtain ⟨h8, hhead, hzero⟩ := hshort hn
      have hother : ∀ b : UInt8, (fproc .v4 pid (Function.update ptr 9 b) n p tv).1 =
          (fproc .v4 pid ptr n p tv).1 :=
        fun b => (h _ fun i hi => Function.update_of_ne (by omega) ..).1
      have hone : (fproc .v4 pid (Function.update ptr 9 1) n p tv).1 = -2 :=
        procV4_short_of_other p tv rfl (by omega) (not_not.1 hhead) hzero
      have htwo : (fproc .v4 pid (Function.update ptr 9 0) n p tv).1 = -1 := by
        simp only [fproc, procV4]
        rw [if_pos (show (Function.update ptr 9 0 9).toNat ≠ 1 by simp)]
      have := (hother 1).trans (hother 0).symm
      omega
    · obtain ⟨hproto, hcut⟩ := hfar hn
      obtain ⟨b, hb⟩ := exists_procIcmp_ne p tv (not_not.1 hcut)
      have hlen := (not_not.1 hcut).2.2.2
      have hzero : Function.update ptr (headLen ptr + 23) b 0 = ptr 0 :=
        Function.update_of_ne (by omega) ..
      have hnine : Function.update ptr (headLen ptr + 23) b 9 = ptr 9 :=
        Function.update_of_ne (by omega) ..
      have hsame := (h (Function.update ptr (headLen ptr + 23) b) fun i hi =>
        Function.update_of_ne (by omega) ..).2
      simp only [fproc, procV4, hnine, headLen_congr hzero, if_neg hproto,
        drop_update] at hsame
      exact hb hsame

/-- A packet that reaches far enough stores a round trip time only if the whole time of the
request was received. -/
theorem whole_of_reachesFar {fam : Family} {pid : ℕ} {ptr : Bytes} {n : ℕ} {p : Proto}
    {tv : Timeval} (h : ReachesFar fam pid ptr n) (hstored : (fproc fam pid ptr n p tv).1 = 0) :
    icmpOffset fam ptr + 24 ≤ n := by
  cases fam with
  | v6 =>
    obtain ⟨htype, hid, hlow, -⟩ := procIcmp_eq_zero hstored
    by_contra hshort
    simp only [icmpOffset] at hshort
    exact h ⟨htype, hid, hlow, by omega⟩
  | v4 =>
    rcases h with ⟨hn, hshort⟩ | ⟨hn, hfar⟩
    · have hstored' : (procV4 pid ptr n p tv).1 = 0 := hstored
      rw [procV4_short p tv hn hshort] at hstored'
      exact absurd hstored' (show (-1 : ℤ) ≠ 0 by decide)
    · simp only [fproc, procV4] at hstored
      split at hstored
      · exact absurd hstored (show (-1 : ℤ) ≠ 0 by decide)
      rename_i hproto
      obtain ⟨htype, hid, hlow, -⟩ := procIcmp_eq_zero hstored
      by_contra hshort
      simp only [icmpOffset] at hshort
      exact (hfar.resolve_left hproto) ⟨htype, hid, hlow, by omega⟩

/-- For every buffer and every number of received bytes, the result depends on the received
bytes only if and only if the packet reaches as far as it is read. A round trip time is
then stored only if the whole time of the request was received. -/
theorem fromReceived_iff (fam : Family) (pid : ℕ) (ptr : Bytes) (n : ℕ) (p : Proto)
    (tv : Timeval) :
    (FromReceived fam pid ptr n p tv ↔ ReachesFar fam pid ptr n) ∧
      (FromReceived fam pid ptr n p tv → (fproc fam pid ptr n p tv).1 = 0 →
        icmpOffset fam ptr + 24 ≤ n) :=
  ⟨⟨.of_fromReceived, .of_reachesFar p tv⟩, fun h => whole_of_reachesFar (.of_fromReceived h)⟩

/-- An echo reply to the process 7 with 8 bytes of data, from 127.0.0.1. -/
def shortReply : List UInt8 :=
  [0x45, 0, 0, 36, 0, 0, 0, 0, 64, 1, 0, 0, 127, 0, 0, 1, 127, 0, 0, 1] ++
    [0, 0, 0, 0, 7, 0, 0, 0] ++ [1, 0, 0, 0, 0, 0, 0, 0]

/-- The time is read past its end, and what stands there decides the round trip time. -/
theorem not_fromReceived_shortReply :
    ¬FromReceived .v4 7 (buff shortReply) shortReply.length { initIp .v4 with nsent := 1 }
      ⟨3, 0⟩ := by
  intro h
  have hsame := (h (Function.update (buff shortReply) 37 0x10) fun i hi =>
    Function.update_of_ne (by simp [shortReply] at hi; omega) ..).2
  exact absurd (congrFun hsame 0) (by decide)

end NetProg.Rtt
