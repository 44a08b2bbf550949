import NetProg.Rtt.Attempts
import NetProg.Rtt.Checksum
import NetProg.Rtt.Delivery
import NetProg.Rtt.RoundTrip

/-!
# From the bytes that are sent to the time that is stored

A host answers an echo request with the same message : `echo` changes the type and the checksum
and keeps the rest. The reply comes behind an IPv4 header of any length, or alone over IPv6. What
`procV4` and `procV6` read from it is what `sendV4` and `sendV6` wrote (`isReply_packet`), so that
a network of such hosts is well behaved (`netStep_of_wireStep`), whatever the headers and checksums
are.
-/

namespace NetProg.Rtt

/-! ## Messages and packets -/

/-- The message that `sendto` is given. The kernel fills in the checksum over IPv6. -/
def Request.bytes (r : Request) : Family → List UInt8
  | .v4 => storeWord r.message 1 (inCksum r.message)
  | .v6 => r.message

/-- The reply of a host to a message. -/
def echo (fam : Family) (cksum : UInt16) : List UInt8 → List UInt8
  | [] => []
  | _ :: msg => storeWord (UInt8.ofNat (echoReply fam) :: msg) 1 cksum

/-- What a raw socket gets. -/
def packet (header icmp : List UInt8) : Family → List UInt8
  | .v4 => header ++ icmp
  | .v6 => icmp

/-- An IP header with a length that is right, of a packet with an ICMP message. -/
structure IpHeader (header : List UInt8) : Prop where
  headLen : headLen (buff header) = header.length
  long : 20 ≤ header.length
  icmp : buff header 9 = 1

/-- A header without options, from 127.0.0.1 to 127.0.0.1. -/
def plainHeader : List UInt8 :=
  [0x45, 0, 0, 84, 0, 0, 0, 0, 64, 1, 0, 0, 127, 0, 0, 1, 127, 0, 0, 1]

instance (header : List UInt8) : Decidable (IpHeader header) :=
  decidable_of_iff (Rtt.headLen (buff header) = header.length ∧ 20 ≤ header.length ∧
    buff header 9 = 1) ⟨fun h => ⟨h.1, h.2.1, h.2.2⟩, fun h => ⟨h.1, h.2, h.3⟩⟩

/-- The fields of the request fit into their places. -/
structure Request.Fits (r : Request) : Prop where
  id : r.id < 65536
  seq : 0 ≤ r.seq ∧ r.seq < 65536
  sec : Signed64 r.time.sec
  usec : Signed64 r.time.usec

/-! ## Reading back -/

theorem bytesLe_succ (len n : ℕ) :
    bytesLe (len + 1) n = UInt8.ofNat n :: bytesLe len (n / 256) := by
  unfold bytesLe
  rw [List.range_succ_eq_map, List.map_cons, List.map_map, pow_zero, Nat.div_one]
  refine congrArg _ (List.map_congr_left fun k _ => ?_)
  simp only [Function.comp, pow_succ', Nat.div_div_eq_div_mul, Nat.succ_eq_add_one]

@[simp] theorem length_bytesLe (len n : ℕ) : (bytesLe len n).length = len := by
  simp [bytesLe]

/-- A number is read back from its bytes, wherever they are. -/
theorem readLe_bytesLe (pre post : List UInt8) (len n : ℕ) :
    readLe (buff (pre ++ (bytesLe len n ++ post))) pre.length len = n % 256 ^ len := by
  induction len generalizing pre n with
  | zero => simp [readLe, Nat.mod_one]
  | succ len ih =>
    have hfirst : buff (pre ++ (bytesLe (len + 1) n ++ post)) pre.length = UInt8.ofNat n := by
      simp [buff, bytesLe_succ]
    have hrest := ih (pre ++ [UInt8.ofNat n]) (n / 256)
    rw [List.append_assoc, List.singleton_append, ← List.cons_append, ← bytesLe_succ,
      List.length_append, List.length_singleton] at hrest
    rw [readLe, hfirst, hrest, pow_succ', Nat.mod_mul]
    simp

theorem toSigned_emod {v : ℤ} (h : Signed64 v) :
    toSigned ((v % 2 ^ 64).toNat % 256 ^ 8) = v := by
  obtain ⟨hlow, hhigh⟩ := h
  rw [toSigned, BitVec.toInt_ofNat', Int.bmod_def]
  split <;> omega

/-- The message behind the checksum : id, sequence number, time and padding. -/
def Request.tail (r : Request) : List UInt8 :=
  bytesLe 2 r.id ++ (bytesLe 2 r.seq.toNat ++ (bytesLe 8 (r.time.sec % 2 ^ 64).toNat ++
    (bytesLe 8 (r.time.usec % 2 ^ 64).toNat ++ List.replicate (dataLen - 16) 0xa5)))

/-- The reply to a request. -/
theorem echo_bytes (fam : Family) (cksum : UInt16) (r : Request) :
    ∃ lo hi, echo fam cksum (r.bytes fam) =
      [UInt8.ofNat (echoReply fam), UInt8.ofNat r.code, lo, hi] ++ r.tail := by
  have hmsg : r.message = UInt8.ofNat r.type :: UInt8.ofNat r.code :: 0 :: 0 :: r.tail := by
    simp [Request.message, Request.tail]
  cases fam with
  | v4 =>
    rw [Request.bytes, hmsg]
    exact ⟨_, _, rfl⟩
  | v6 =>
    rw [Request.bytes, hmsg]
    exact ⟨_, _, rfl⟩

/-- The fields are read back from a message with any first four bytes. -/
theorem readLe_tail (head : List UInt8) (hhead : head.length = 4) {r : Request} (h : r.Fits) :
    readLe (buff (head ++ r.tail)) 4 2 = r.id ∧ readLe (buff (head ++ r.tail)) 6 2 = r.seq ∧
      readTimeval (buff (head ++ r.tail)) 8 = r.time := by
  obtain ⟨hid, ⟨hseq, hseq'⟩, hsec, husec⟩ := h
  -- each field stands behind the ones before it
  have hread : ∀ (pre : List UInt8) (len n : ℕ) {post : List UInt8},
      r.tail = pre ++ (bytesLe len n ++ post) →
        readLe (buff (head ++ r.tail)) (4 + pre.length) len = n % 256 ^ len := by
    intro pre len n post htail
    have h := readLe_bytesLe (head ++ pre) post len n
    rwa [List.append_assoc, ← htail, List.length_append, hhead] at h
  have hreadId := hread [] 2 r.id rfl
  have hreadSeq := hread (bytesLe 2 r.id) 2 r.seq.toNat rfl
  have hreadSec := hread (bytesLe 2 r.id ++ bytesLe 2 r.seq.toNat) 8 (r.time.sec % 2 ^ 64).toNat
    (List.append_assoc ..).symm
  have hreadUsec := hread (bytesLe 2 r.id ++ (bytesLe 2 r.seq.toNat ++
    bytesLe 8 (r.time.sec % 2 ^ 64).toNat)) 8 (r.time.usec % 2 ^ 64).toNat
    (by simp only [Request.tail, List.append_assoc]; rfl)
  simp only [List.length_append, length_bytesLe] at hreadSeq hreadSec hreadUsec
  refine ⟨?_, ?_, ?_⟩
  · exact hreadId.trans (Nat.mod_eq_of_lt hid)
  · rw [hreadSeq, Nat.mod_eq_of_lt (by omega), Int.toNat_of_nonneg hseq]
  · rw [readTimeval, hreadSec, hreadUsec, toSigned_emod hsec, toSigned_emod husec]

/-- The fields of a reply are those of the request. -/
theorem isEchoReply_echo (fam : Family) (cksum : UInt16) {r : Request} (h : r.Fits) :
    IsEchoReply (echoReply fam) r (buff (echo fam cksum (r.bytes fam)))
      (echo fam cksum (r.bytes fam)).length := by
  obtain ⟨lo, hi, heq⟩ := echo_bytes fam cksum r
  rw [heq]
  obtain ⟨hid, hseq, htime⟩ :=
    readLe_tail [UInt8.ofNat (echoReply fam), UInt8.ofNat r.code, lo, hi] rfl h
  refine ⟨?_, ?_, hid, hseq, htime⟩
  · simp [Request.tail, dataLen]
  · cases fam <;> rfl

theorem drop_buff (header icmp : List UInt8) :
    Bytes.drop (buff (header ++ icmp)) header.length = buff icmp := by
  funext i
  simp only [Bytes.drop, buff, List.getD_eq_getElem?_getD]
  rw [List.getElem?_append_right (Nat.le_add_right _ i), Nat.add_sub_cancel_left]

theorem buff_append (header icmp : List UInt8) {i : ℕ} (hi : i < header.length) :
    buff (header ++ icmp) i = buff header i := by
  simp only [buff, List.getD_eq_getElem?_getD, List.getElem?_append_left hi]

/-- The packet with the echo of a request is a reply to it. -/
theorem isReply_packet (fam : Family) {header : List UInt8} (hheader : IpHeader header)
    (cksum : UInt16) {r : Request} (h : r.Fits) :
    IsReply fam r (packet header (echo fam cksum (r.bytes fam)) fam) := by
  cases fam with
  | v6 => exact isEchoReply_echo .v6 cksum h
  | v4 =>
    have hlong := hheader.long
    have hhead : headLen (buff (header ++ echo .v4 cksum (r.bytes .v4))) = header.length := by
      rw [← hheader.headLen, headLen, headLen, buff_append header _ (by omega)]
    refine ⟨?_, ?_⟩
    · rw [packet, buff_append header _ (by omega), hheader.icmp]
      rfl
    · rw [packet, hhead, drop_buff, List.length_append]
      push_cast
      rw [add_sub_cancel_left]
      exact isEchoReply_echo .v4 cksum h

/-! ## Times of the day -/

/-- A time that `gettimeofday` gives in the next 270000 years. The milliseconds between two of
them are a `double`. -/
structure Timeval.OfDay (tv : Timeval) : Prop where
  normal : tv.Normal
  nonneg : 0 ≤ tv.sec
  lt : tv.sec < 2 ^ 43

instance (tv : Timeval) : Decidable tv.OfDay :=
  decidable_of_iff (tv.Normal ∧ 0 ≤ tv.sec ∧ tv.sec < 2 ^ 43)
    ⟨fun h => ⟨h.1, h.2.1, h.2.2⟩, fun h => ⟨h.1, h.2, h.3⟩⟩

theorem Timeval.OfDay.signed {tv : Timeval} (h : tv.OfDay) : Signed64 tv.sec ∧ Signed64 tv.usec := by
  obtain ⟨⟨hlow, hhigh⟩, hnonneg, hlt⟩ := h
  exact ⟨⟨by omega, by omega⟩, ⟨by omega, by omega⟩⟩

/-- The whole milliseconds between two times of the day are stored. -/
theorem rttMs_ofDay {out inn : Timeval} (hout : out.OfDay) (hinn : inn.OfDay) :
    rttMs (tvSub out inn) = (out.micros - inn.micros) / 1000 := by
  obtain ⟨⟨hlow, hhigh⟩, hnonneg, hlt⟩ := id hout
  obtain ⟨⟨hlow', hhigh'⟩, hnonneg', hlt'⟩ := id hinn
  have hms : -2 ^ 53 < (out.micros - inn.micros) / 1000 ∧
      (out.micros - inn.micros) / 1000 < 2 ^ 53 := by
    unfold Timeval.micros
    exact ⟨by omega, by omega⟩
  exact (rttMs_tvSub hout.normal hinn.normal ⟨by omega, by omega⟩
    (Lib.isDouble_of_abs_lt (abs_lt.2 hms))).2

theorem fits_fsend (fam : Family) (pid : ℕ) {now : Timeval} (hnow : now.OfDay) (p : Proto) :
    (fsend fam pid now p).1.Fits := by
  obtain ⟨hsec, husec⟩ := hnow.signed
  rw [fsend_fst]
  exact ⟨Nat.mod_lt _ (by decide),
    ⟨Int.emod_nonneg _ (by decide), Int.emod_lt_of_pos _ (by decide)⟩, hsec, husec⟩

/-- The packet with the echo of a request to a host with an address of the family. -/
def echoPacket (fam : Family) (r : Request) (header : List UInt8) (cksum : UInt16) : List UInt8 :=
  packet header (echo fam cksum (r.bytes fam)) fam

/-- What `fsend` wrote into a request comes back to `fproc` : the milliseconds between the two
times are stored in the array if the two processes have one id in 16 bits, and otherwise the packet
is an error. -/
theorem fproc_echoPacket (fam : Family) (pid pid' : ℕ) {now : Timeval} (hnow : now.OfDay)
    (p : Proto) {q : Proto} {i : Fin 3} (hq : q.nsent = i + 1) {header : List UInt8}
    (hheader : IpHeader header) (cksum : UInt16) {tv : Timeval} (htv : tv.OfDay) :
    fproc fam pid' (buff (echoPacket fam (fsend fam pid now p).1 header cksum))
        (echoPacket fam (fsend fam pid now p).1 header cksum).length q tv =
      if pid % 65536 = pid' % 65536 then (0, q.setRtt i ((tv.micros - now.micros) / 1000))
      else (-1, q) := by
  have hreply := isReply_packet fam hheader cksum (fits_fsend fam pid hnow p)
  have htime : (fsend fam pid now p).1.time = now := by rw [fsend_fst]
  have hid : (fsend fam pid now p).1.id = pid % 65536 := by rw [fsend_fst]
  split
  case isTrue hpid =>
    rw [echoPacket, fproc_reply hreply (hid.trans hpid), htime, rttMs_ofDay htv hnow, hq,
      add_sub_cancel_right]
  case isFalse hpid =>
    -- the id is read back, and it is not the own one
    have hicmp : ∀ type icmp len, IsEchoReply type (fsend fam pid now p).1 icmp len →
        procIcmp type pid' icmp len q tv = (-1, q) := by
      rintro type icmp len ⟨hlen, htype, hrid, -, -⟩
      have hlong : ¬len < 8 := by
        unfold dataLen at hlen
        omega
      unfold procIcmp
      rw [if_neg hlong, if_pos htype, if_pos (by rw [hrid, hid]; exact hpid)]
    cases fam with
    | v4 =>
      obtain ⟨hproto, hreply⟩ := hreply
      exact (if_neg (by simp [hproto, echoPacket])).trans (hicmp _ _ _ hreply)
    | v6 => exact hicmp _ _ _ hreply

theorem fproc_echoPacket_loopback :
    fproc .v4 7 (buff (echoPacket .v4 (fsend .v4 7 ⟨1, 999999⟩ (initIp .v4)).1 plainHeader 0))
        (echoPacket .v4 (fsend .v4 7 ⟨1, 999999⟩ (initIp .v4)).1 plainHeader 0).length
        (fsend .v4 7 ⟨1, 999999⟩ (initIp .v4)).2 ⟨2, 4999⟩ =
      (0, (fsend .v4 7 ⟨1, 999999⟩ (initIp .v4)).2.setRtt 0 5) :=
  (fproc_echoPacket (i := 0) .v4 7 7 (by decide) _ (by decide) (by decide) 0 (by decide)).trans
    (if_pos rfl)

/-! ## A network of hosts that echo -/

inductive WireLabel where
  | send (now : Timeval)
  /-- The echo of a pending request arrives, after the request was sent. -/
  | echo (a : Addr) (kr : ℕ × Request) (header : List UInt8) (cksum : UInt16) (tv : Timeval)
  | foreign (fam : Family) (caddr : Addr) (data : List UInt8) (tv : Timeval)
  | recvNone (fam : Family)
  | recvDone (fam : Family)
deriving DecidableEq, Repr

/-- `==` on pending requests is equality, by name : `wireStep` is built on this proof. -/
instance lawfulBEqPending : LawfulBEq (ℕ × Request) :=
  inferInstance

/-- One step of the program and the hosts. Nothing is asked of the packets that come from a host
but that they hold the bytes of a request to it. -/
def wireStep (cfg : Config) (w : Net) : WireLabel → Option Net
  | .send now => if now.OfDay then netStep cfg w (.send now) else none
  | .echo a kr header cksum tv =>
    if kr ∈ w.pending a ∧ IpHeader header ∧ tv.OfDay ∧ kr.2.time.micros ≤ tv.micros then
      (step cfg w.sys (.recv a.family a (echoPacket a.family kr.2 header cksum) tv)).map fun sys =>
        { sys := sys
          pending := Function.update w.pending a ((w.pending a).erase kr)
          answered := Function.update w.answered a
            (Function.update (w.answered a) kr.1 (some (rttMs (tvSub tv kr.2.time)))) }
    else none
  | .foreign fam caddr data tv => netStep cfg w (.foreign fam caddr data tv)
  | .recvNone fam => netStep cfg w (.recvNone fam)
  | .recvDone fam => netStep cfg w (.recvDone fam)

/-- The step of the well-behaved network. -/
def WireLabel.net : WireLabel → NetLabel
  | .send now => .send now
  | .echo a kr header cksum tv => .reply a kr (echoPacket a.family kr.2 header cksum) tv
  | .foreign fam caddr data tv => .foreign fam caddr data tv
  | .recvNone fam => .recvNone fam
  | .recvDone fam => .recvDone fam

/-- Every request that was sent is pending or answered, in no negative time. -/
structure Measured (w : Net) (a : Addr) : Prop where
  fits : ∀ kr ∈ w.pending a, kr.2.Fits ∧ kr.2.time.OfDay
  answered : ∀ k, 1 ≤ k → k ≤ (w.sys.proto a).sent →
    (∃ r, (k, r) ∈ w.pending a) ∨ ∃ ms, 0 ≤ ms ∧ w.answered a k = some ms

section Steps

variable {cfg : Config} {w w' : Net}

/-- A network of hosts that echo is well behaved. -/
theorem netStep_of_wireStep (h : ∀ a, Measured w a) {l : WireLabel}
    (hs : wireStep cfg w l = some w') : netStep cfg w l.net = some w' := by
  cases l with
  | send now => exact (Option.ite_none_right_eq_some.1 hs).2
  | echo a kr header cksum tv =>
    obtain ⟨⟨hkr, hheader, -, -⟩, hs⟩ := Option.ite_none_right_eq_some.1 hs
    have hreply := isReply_packet a.family hheader cksum ((h a).fits kr hkr).1
    exact (if_pos ⟨hkr, hreply⟩).trans hs
  | foreign fam caddr data tv => exact hs
  | recvNone fam => exact hs
  | recvDone fam => exact hs

theorem Measured.congr {a : Addr} (h : Measured w a)
    (hsent : (w'.sys.proto a).sent = (w.sys.proto a).sent) (hpending : w'.pending a = w.pending a)
    (hanswered : w'.answered a = w.answered a) : Measured w' a where
  fits := by rw [hpending]; exact h.fits
  answered := by rw [hsent, hpending, hanswered]; exact h.answered

/-- The calls of `fsend` that went well, after an iteration of the sender. -/
theorem sent_sendHelper (cfg : Config) (s : Sys) (now : Timeval) (b : Addr) :
    ((sendHelper cfg s true now).proto b).sent =
      (s.proto b).sent + if s.sendQ.qFront = some b then 1 else 0 := by
  have hproto : (sendHelper cfg s true now).proto = (sendLocked cfg s true now).proto := by
    unfold sendHelper
    split <;> rfl
  rw [hproto, sendLocked]
  cases hq : s.sendQ.qFront with
  | none =>
    simp only [reduceCtorEq, if_false]
    split <;> rfl
  | some a =>
    simp only [sendJob, fsend_snd, if_true, Sys.setProto_proto, Option.some.injEq]
    by_cases hab : a = b
    · subst hab
      simp
    · rw [Function.update_of_ne (Ne.symm hab), if_neg hab]
      rfl

theorem measured_send (hn : NetInv cfg w) (h : ∀ a, Measured w a) {now : Timeval}
    (hnow : now.OfDay) (hs : netStep cfg w (.send now) = some w') (b : Addr) : Measured w' b := by
  obtain ⟨sys, hsys, hw'⟩ := Option.map_eq_some_iff.1 hs
  obtain ⟨-, -, rfl⟩ := step_send.1 hsys
  have hsent := sent_sendHelper cfg w.sys now b
  unfold nextRequest at hw'
  cases hq : w.sys.sendQ.qFront with
  | none =>
    simp only [hq, Option.map_none] at hw'
    subst hw'
    exact (h b).congr (by simpa [hq] using hsent) rfl rfl
  | some a =>
    have hfits := fits_fsend (w.sys.proto a).icmpproto cfg.pid hnow (w.sys.proto a)
    simp only [hq, Option.map_some] at hw'
    subst hw'
    rw [hq] at hsent
    obtain ⟨-, hpending, -, hnsent, hlt⟩ := hn.queued hq
    by_cases hab : a = b
    · subst hab
      rw [if_pos rfl] at hsent
      refine ⟨fun kr hkr => ?_, fun k hk hle => ?_⟩
      · simp only [Function.update_self, hpending, List.mem_singleton] at hkr
        subst hkr
        exact ⟨hfits, by rwa [fsend_fst]⟩
      · have hle' : k ≤ (w.sys.proto a).sent + 1 := hle.trans_eq hsent
        simp only [Function.update_self]
        rcases Nat.lt_or_ge (w.sys.proto a).sent k with hnew | hold
        · obtain rfl : k = (w.sys.proto a).sent + 1 := by omega
          exact .inl ⟨_, List.mem_cons_self⟩
        · exact ((h a).answered k hk hold).imp_left fun ⟨r, hr⟩ => ⟨r, List.mem_cons_of_mem _ hr⟩
    · refine (h b).congr ?_ (Function.update_of_ne (Ne.symm hab) ..) rfl
      simpa [hab] using hsent

/-- Clocks that go on give times that are not negative. -/
theorem rttMs_nonneg {out inn : Timeval} (hout : out.OfDay) (hinn : inn.OfDay)
    (h : inn.micros ≤ out.micros) : 0 ≤ rttMs (tvSub out inn) := by
  rw [rttMs_ofDay hout hinn]
  omega

theorem measured_echo (h : ∀ a, Measured w a) {a : Addr} {kr : ℕ × Request} {tv : Timeval}
    {data : List UInt8} {sys : Sys} (hkr : kr ∈ w.pending a) (htv : tv.OfDay)
    (hle : kr.2.time.micros ≤ tv.micros)
    (hsys : step cfg w.sys (.recv a.family a data tv) = some sys) (b : Addr) :
    Measured { sys := sys
               pending := Function.update w.pending a ((w.pending a).erase kr)
               answered := Function.update w.answered a
                (Function.update (w.answered a) kr.1 (some (rttMs (tvSub tv kr.2.time)))) } b := by
  obtain ⟨-, -, rfl⟩ := step_recv.1 hsys
  obtain ⟨p, hproto, -, hsent, -⟩ := recvPacket_cases cfg a.family w.sys a data tv
  by_cases hab : a = b
  · subst hab
    refine ⟨fun kr' hkr' => ?_, fun k hk hk' => ?_⟩
    · simp only [Function.update_self] at hkr'
      exact (h a).fits kr' (List.mem_of_mem_erase hkr')
    · simp only [hproto, Function.update_self, hsent] at hk' ⊢
      by_cases hkk : k = kr.1
      · have hnonneg := rttMs_nonneg htv ((h a).fits kr hkr).2 hle
        exact .inr ⟨_, hnonneg, by rw [hkk, Function.update_self]⟩
      · rw [Function.update_of_ne hkk]
        refine ((h a).answered k hk hk').imp_left fun ⟨r, hr⟩ => ⟨r, ?_⟩
        exact (List.mem_erase_of_ne fun heq => hkk (congrArg Prod.fst heq)).2 hr
  · exact (h b).congr (by simp [hproto, Function.update_of_ne (Ne.symm hab)])
      (Function.update_of_ne (Ne.symm hab) ..) (Function.update_of_ne (Ne.symm hab) ..)

theorem measured_step (hn : NetInv cfg w) (h : ∀ a, Measured w a) {l : WireLabel}
    (hs : wireStep cfg w l = some w') (b : Addr) : Measured w' b := by
  cases l with
  | send now =>
    obtain ⟨hnow, hs⟩ := Option.ite_none_right_eq_some.1 hs
    exact measured_send hn h hnow hs b
  | echo a kr header cksum tv =>
    obtain ⟨⟨hkr, hheader, htv, hle⟩, hs⟩ := Option.ite_none_right_eq_some.1 hs
    obtain ⟨sys, hsys, rfl⟩ := Option.map_eq_some_iff.1 hs
    exact measured_echo h hkr htv hle hsys b
  | foreign fam caddr data tv =>
    obtain ⟨hnot, hs⟩ := Option.ite_none_left_eq_some.1 hs
    obtain ⟨sys, hsys, rfl⟩ := Option.map_eq_some_iff.1 hs
    obtain ⟨-, -, rfl⟩ := step_recv.1 hsys
    rw [recvPacket, if_neg hnot]
    exact h b
  | recvNone fam =>
    obtain ⟨sys, hsys, rfl⟩ := Option.map_eq_some_iff.1 hs
    obtain ⟨-, -, rfl⟩ := step_recvNone.1 hsys
    rw [if_neg (by simp [hn.stopThreads])]
    exact h b
  | recvDone fam =>
    obtain ⟨sys, hsys, rfl⟩ := Option.map_eq_some_iff.1 hs
    obtain ⟨-, -, rfl⟩ := step_recvDone.1 hsys
    exact (h b).congr rfl rfl rfl

/-- What holds in every state that is reached with hosts that echo. -/
theorem wire_invariant {ls : List WireLabel}
    (hr : run (wireStep cfg) (.start cfg) ls = some w) : NetInv cfg w ∧ ∀ a, Measured w a := by
  refine run_invariant_of_step (I := fun w => NetInv cfg w ∧ ∀ a, Measured w a)
    (fun w l w' h hs => ?_) ⟨netInv_start cfg, fun a => ?_⟩ hr
  · exact ⟨netInv_step cfg w l.net w' h.1 (netStep_of_wireStep h.2 hs), measured_step h.1 h.2 hs⟩
  · refine ⟨fun kr hkr => absurd hkr List.not_mem_nil, fun k hk hle => ?_⟩
    have hzero : (init cfg).proto a = initIp a.family := rfl
    simp only [Net.start, hzero, initIp] at hle
    omega

end Steps

end NetProg.Rtt
