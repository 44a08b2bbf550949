import NetProg.Lib.Double

/-!
# Echo requests and replies

`struct proto` is the state the program keeps for one address. `sendV4` and `sendV6` build
an echo request and count it, `procV4` and `procV6` read a received packet byte by byte
and store the round trip time. The two versions differ in the header in front of the ICMP
message and in the type numbers, so each is an instance of `send` and `procIcmp`.

The code never reads `icmp_seq`, and takes the place of the round trip time in `rtt` from
`nsent` alone. Every index it uses is logged in `indices`.
-/

namespace NetProg.Rtt

/-- `IPPROTO_ICMP` or `IPPROTO_ICMPV6`. -/
inductive Family where
  | v4
  | v6
deriving DecidableEq, Repr

/-! ## Times -/

/-- `struct timeval`. -/
structure Timeval where
  sec : ℤ
  usec : ℤ
deriving DecidableEq, Repr

/-- The value of a `long`, which wraps around. -/
def wrap64 (v : ℤ) : ℤ :=
  v.bmod (2 ^ 64)

/-- `tv_sub`. -/
def tvSub (out inn : Timeval) : Timeval :=
  let usec := wrap64 (out.usec - inn.usec)
  if usec < 0 then ⟨wrap64 (wrap64 (out.sec - 1) - inn.sec), wrap64 (usec + 1000000)⟩
  else ⟨wrap64 (out.sec - inn.sec), usec⟩

/-- The round trip time in milliseconds, from `tvrecv` after the subtraction. The expression
is one of `long`s, with a division of integers, and is stored in a `double`. -/
def rttMs (tv : Timeval) : ℤ :=
  Lib.toDouble (wrap64 (wrap64 (tv.sec * 1000) + tv.usec.tdiv 1000))

/-- A number that fits into 64 bits with its sign. -/
def Signed64 (v : ℤ) : Prop :=
  -2 ^ 63 ≤ v ∧ v < 2 ^ 63

instance (v : ℤ) : Decidable (Signed64 v) :=
  inferInstanceAs (Decidable (_ ∧ _))

theorem wrap64_of_signed {v : ℤ} (h : Signed64 v) : wrap64 v = v := by
  obtain ⟨hlow, hhigh⟩ := h
  exact Int.bmod_eq_of_le (by omega) (by omega)

/-- A value that wraps around is off by a multiple of `2 ^ 64`. -/
theorem exists_wrap64_eq (v : ℤ) : ∃ k, wrap64 v = v + 2 ^ 64 * k ∧ Signed64 (wrap64 v) := by
  have hlow := Int.le_bmod (x := v) (m := 2 ^ 64) (by decide)
  have hhigh := Int.bmod_lt (x := v) (m := 2 ^ 64) (by decide)
  have hdiv : v.bmod (2 ^ 64) = v - 2 ^ 64 * v.bdiv (2 ^ 64) :=
    Int.bmod_eq_self_sub_mul_bdiv v (2 ^ 64)
  unfold Signed64 wrap64
  exact ⟨-v.bdiv (2 ^ 64), by omega, by omega, by omega⟩

/-! ## Memory -/

/-- The bytes from a pointer on. -/
abbrev Bytes :=
  ℕ → UInt8

/-- The `len` bytes from `off` on as a number, lowest byte first. -/
def readLe (ptr : Bytes) : ℕ → ℕ → ℕ
  | _, 0 => 0
  | off, len + 1 => (ptr off).toNat + 256 * readLe ptr (off + 1) len

/-- The value of a 64-bit signed number. -/
def toSigned (n : ℕ) : ℤ :=
  (BitVec.ofNat 64 n).toInt

/-- The `struct timeval` at `off`. -/
def readTimeval (ptr : Bytes) (off : ℕ) : Timeval :=
  ⟨toSigned (readLe ptr off 8), toSigned (readLe ptr (off + 8) 8)⟩

/-! ## The state of an address -/

/-- `struct proto`, without what is the same for all addresses of a family. `rtt` is
memory, so that an index outside the array changes no entry of it. It is taken to change no
other field either, which `Proto.storeRtt` makes exact for `rtt[-1]`.

The last three fields are ghosts : the indices used on `rtt`, the calls of `fsend`, and
those that returned 0. -/
structure Proto where
  icmpproto : Family
  nsent : ℤ
  rtt : ℤ → ℤ
  indices : List ℤ
  tries : ℕ
  sent : ℕ

/-- `initIp`. -/
def initIp (icmpproto : Family) : Proto :=
  ⟨icmpproto, 0, fun _ => -1, [], 0, 0⟩

/-- `proto->rtt[i] = v`. -/
def Proto.setRtt (p : Proto) (i v : ℤ) : Proto :=
  { p with rtt := Function.update p.rtt i v, indices := i :: p.indices }

@[simp] theorem Proto.setRtt_icmpproto (p : Proto) (i v : ℤ) :
    (p.setRtt i v).icmpproto = p.icmpproto :=
  rfl

@[simp] theorem Proto.setRtt_nsent (p : Proto) (i v : ℤ) : (p.setRtt i v).nsent = p.nsent :=
  rfl

@[simp] theorem Proto.setRtt_rtt (p : Proto) (i v : ℤ) :
    (p.setRtt i v).rtt = Function.update p.rtt i v :=
  rfl

@[simp] theorem Proto.setRtt_indices (p : Proto) (i v : ℤ) :
    (p.setRtt i v).indices = i :: p.indices :=
  rfl

@[simp] theorem Proto.setRtt_tries (p : Proto) (i v : ℤ) : (p.setRtt i v).tries = p.tries :=
  rfl

@[simp] theorem Proto.setRtt_sent (p : Proto) (i v : ℤ) : (p.setRtt i v).sent = p.sent :=
  rfl

/-! ## Sending -/

/-- `ICMP_ECHO` and `ICMP6_ECHO_REQUEST`. -/
def echoRequest : Family → ℕ
  | .v4 => 8
  | .v6 => 128

/-- `ICMP_ECHOREPLY` and `ICMP6_ECHO_REPLY`. -/
def echoReply : Family → ℕ
  | .v4 => 0
  | .v6 => 129

/-- `DATA_LEN`. -/
def dataLen : ℕ :=
  56

/-- An echo request. `time` is at the start of the data. -/
structure Request where
  type : ℕ
  code : ℕ
  id : ℕ
  seq : ℤ
  time : Timeval
deriving DecidableEq, Repr

/-- The common part of `sendV4` and `sendV6` up to `sendto` : the request, and the proto
with `nsent` counted up. `icmp_seq` has 16 bits. -/
def send (type pid : ℕ) (now : Timeval) (p : Proto) : Request × Proto :=
  (⟨type, 0, pid % 65536, p.nsent % 65536, now⟩, { p with nsent := p.nsent + 1 })

/-- `sendV4`. -/
def sendV4 : ℕ → Timeval → Proto → Request × Proto :=
  send (echoRequest .v4)

/-- `sendV6`. -/
def sendV6 : ℕ → Timeval → Proto → Request × Proto :=
  send (echoRequest .v6)

/-- `proto->fsend`. -/
def fsend : Family → ℕ → Timeval → Proto → Request × Proto
  | .v4 => sendV4
  | .v6 => sendV6

@[simp] theorem fsend_snd (fam : Family) (pid : ℕ) (now : Timeval) (p : Proto) :
    (fsend fam pid now p).2 = { p with nsent := p.nsent + 1 } := by
  cases fam <;> rfl

theorem fsend_fst (fam : Family) (pid : ℕ) (now : Timeval) (p : Proto) :
    (fsend fam pid now p).1 = ⟨echoRequest fam, 0, pid % 65536, p.nsent % 65536, now⟩ := by
  cases fam <;> rfl

/-! ## Receiving -/

/-- `procV4` and `procV6` from the ICMP header on. -/
def procIcmp (reply pid : ℕ) (icmp : Bytes) (icmpLen : ℤ) (p : Proto) (tvrecv : Timeval) :
    ℤ × Proto :=
  if icmpLen < 8 then (-1, p)
  else if (icmp 0).toNat = reply then
    if readLe icmp 4 2 ≠ pid % 65536 then (-1, p)
    else if icmpLen < 16 then (-1, p)
    else (0, p.setRtt (p.nsent - 1) (rttMs (tvSub tvrecv (readTimeval icmp 8))))
  else (-2, p.setRtt (p.nsent - 1) (-1))

/-- `ip->ip_hl << 2`. -/
def headLen (ptr : Bytes) : ℕ :=
  (ptr 0).toNat % 16 * 4

/-- The bytes from `off` on. -/
def Bytes.drop (ptr : Bytes) (off : ℕ) : Bytes :=
  fun i => ptr (off + i)

/-- `procV4`. 1 is `IPPROTO_ICMP`. -/
def procV4 (pid : ℕ) (ptr : Bytes) (len : ℤ) (p : Proto) (tvrecv : Timeval) : ℤ × Proto :=
  if (ptr 9).toNat ≠ 1 then (-1, p)
  else procIcmp (echoReply .v4) pid (ptr.drop (headLen ptr)) (len - headLen ptr) p tvrecv

/-- `procV6`. -/
def procV6 (pid : ℕ) (ptr : Bytes) (len : ℤ) (p : Proto) (tvrecv : Timeval) : ℤ × Proto :=
  procIcmp (echoReply .v6) pid ptr len p tvrecv

/-- `proto->fproc`. -/
def fproc : Family → ℕ → Bytes → ℤ → Proto → Timeval → ℤ × Proto
  | .v4 => procV4
  | .v6 => procV6

/-- The ICMP message cannot be used : it is too short, or a reply to another process. -/
def RejectsIcmp (reply pid : ℕ) (icmp : Bytes) (icmpLen : ℤ) : Prop :=
  icmpLen < 8 ∨
    (icmp 0).toNat = reply ∧ (readLe icmp 4 2 ≠ pid % 65536 ∨ icmpLen < 16)

/-- The packet makes `fproc` fail. -/
def Rejects : Family → ℕ → Bytes → ℤ → Prop
  | .v4, pid, ptr, len =>
    (ptr 9).toNat ≠ 1 ∨
      RejectsIcmp (echoReply .v4) pid (ptr.drop (headLen ptr)) (len - headLen ptr)
  | .v6, pid, ptr, len => RejectsIcmp (echoReply .v6) pid ptr len

instance (reply pid : ℕ) (icmp : Bytes) (icmpLen : ℤ) :
    Decidable (RejectsIcmp reply pid icmp icmpLen) :=
  inferInstanceAs (Decidable (_ ∨ _))

instance : ∀ fam pid ptr len, Decidable (Rejects fam pid ptr len)
  | .v4, _, _, _ => inferInstanceAs (Decidable (_ ∨ _))
  | .v6, _, _, _ => inferInstanceAs (Decidable (RejectsIcmp ..))

/-- What `procIcmp` does : it fails and changes nothing, or it writes `rtt[nsent - 1]`. -/
theorem procIcmp_cases (reply pid : ℕ) (icmp : Bytes) (icmpLen : ℤ) (p : Proto) (tv : Timeval) :
    RejectsIcmp reply pid icmp icmpLen ∧ procIcmp reply pid icmp icmpLen p tv = (-1, p) ∨
      ¬RejectsIcmp reply pid icmp icmpLen ∧
        ∃ res v, res ≠ -1 ∧
          procIcmp reply pid icmp icmpLen p tv = (res, p.setRtt (p.nsent - 1) v) := by
  unfold procIcmp RejectsIcmp
  by_cases hlen : icmpLen < 8
  · exact .inl ⟨.inl hlen, by rw [if_pos hlen]⟩
  rw [if_neg hlen]
  by_cases htype : (icmp 0).toNat = reply
  · rw [if_pos htype]
    by_cases hid : readLe icmp 4 2 ≠ pid % 65536
    · exact .inl ⟨.inr ⟨htype, .inl hid⟩, by rw [if_pos hid]⟩
    rw [if_neg hid]
    by_cases hdata : icmpLen < 16
    · exact .inl ⟨.inr ⟨htype, .inr hdata⟩, by rw [if_pos hdata]⟩
    · refine .inr ⟨?_, 0, _, by decide, by rw [if_neg hdata]⟩
      rintro (h | ⟨-, h | h⟩)
      exacts [hlen h, hid h, hdata h]
  · refine .inr ⟨?_, -2, _, by decide, by rw [if_neg htype]⟩
    rintro (h | ⟨h, -⟩)
    exacts [hlen h, htype h]

theorem fproc_cases (fam : Family) (pid : ℕ) (ptr : Bytes) (len : ℤ) (p : Proto) (tv : Timeval) :
    Rejects fam pid ptr len ∧ fproc fam pid ptr len p tv = (-1, p) ∨
      ¬Rejects fam pid ptr len ∧
        ∃ res v, res ≠ -1 ∧ fproc fam pid ptr len p tv = (res, p.setRtt (p.nsent - 1) v) := by
  cases fam with
  | v4 =>
    simp only [fproc, procV4, Rejects]
    by_cases hproto : (ptr 9).toNat ≠ 1
    · exact .inl ⟨.inl hproto, by rw [if_pos hproto]⟩
    · rw [if_neg hproto, or_iff_right hproto]
      exact procIcmp_cases (echoReply .v4) pid (ptr.drop (headLen ptr)) (len - headLen ptr) p tv
  | v6 => exact procIcmp_cases (echoReply .v6) pid ptr len p tv

end NetProg.Rtt
