import NetProg.Rtt.Bounds

/-!
# The scheduler on a well-behaved network

The network carries the echo requests that were sent and not yet answered (`pending`),
each with its number among the requests to its address. No send fails, each request is
answered by one matching reply after any delay, nothing else arrives from a listed
address, and the alarm does not go off. `answered` records the round trip time in the
reply to each request, taken from the request and the arrival time and not from the state
of the program.

The invariant puts each address in one of three situations : it is in the queue, or one
reply is on its way to it, or it is done. The counters of the three threads follow from
sums over the addresses, so that they reach their targets together.
-/

namespace NetProg.Rtt

/-! ## The network -/

/-- The ICMP message is a reply to the request. -/
def IsEchoReply (type : ℕ) (r : Request) (icmp : Bytes) (len : ℤ) : Prop :=
  len = 8 + dataLen ∧ (icmp 0).toNat = type ∧ readLe icmp 4 2 = r.id ∧
    readLe icmp 6 2 = r.seq ∧ readTimeval icmp 8 = r.time

/-- The packet is a reply to the request. -/
def IsReply : Family → Request → List UInt8 → Prop
  | .v4, r, data =>
    (buff data 9).toNat = 1 ∧
      IsEchoReply (echoReply .v4) r ((buff data).drop (headLen (buff data)))
        (data.length - headLen (buff data))
  | .v6, r, data => IsEchoReply (echoReply .v6) r (buff data) data.length

instance (type : ℕ) (r : Request) (icmp : Bytes) (len : ℤ) :
    Decidable (IsEchoReply type r icmp len) :=
  inferInstanceAs (Decidable (_ ∧ _))

instance : ∀ fam r data, Decidable (IsReply fam r data)
  | .v4, _, _ => inferInstanceAs (Decidable (_ ∧ _))
  | .v6, _, _ => inferInstanceAs (Decidable (IsEchoReply ..))

/-- The program and the network. `pending` has the unanswered requests to each address with
their numbers from 1 on, `answered` the round trip times of the replies that were handled. -/
structure Net where
  sys : Sys
  pending : Addr → List (ℕ × Request)
  answered : Addr → ℕ → Option ℤ

def Net.start (cfg : Config) : Net :=
  ⟨init cfg, fun _ => [], fun _ _ => none⟩

inductive NetLabel where
  /-- An iteration of `sendHelper`. -/
  | send (now : Timeval)
  /-- The receiver handles the reply to a pending request. -/
  | reply (a : Addr) (kr : ℕ × Request) (data : List UInt8) (tv : Timeval)
  /-- A packet from an address that is not listed. -/
  | foreign (fam : Family) (caddr : Addr) (data : List UInt8) (tv : Timeval)
  | recvNone (fam : Family)
  | recvDone (fam : Family)

/-- The request that the next iteration of `sendHelper` sends. -/
def nextRequest (cfg : Config) (s : Sys) (now : Timeval) : Option (Addr × ℕ × Request) :=
  s.sendQ.qFront.map fun a =>
    (a, (s.proto a).sent + 1, (fsend (s.proto a).icmpproto cfg.pid now (s.proto a)).1)

/-- One step of the program and the network. -/
def netStep (cfg : Config) (w : Net) : NetLabel → Option Net
  | .send now =>
    (step cfg w.sys (.send true now)).map fun sys =>
      match nextRequest cfg w.sys now with
      | some (a, kr) =>
        { w with sys := sys, pending := Function.update w.pending a (kr :: w.pending a) }
      | none => { w with sys := sys }
  | .reply a kr data tv =>
    if kr ∈ w.pending a ∧ IsReply a.family kr.2 data then
      (step cfg w.sys (.recv a.family a data tv)).map fun sys =>
        { sys := sys
          pending := Function.update w.pending a ((w.pending a).erase kr)
          answered := Function.update w.answered a
            (Function.update (w.answered a) kr.1 (some (rttMs (tvSub tv kr.2.time)))) }
    else none
  | .foreign fam caddr data tv =>
    if caddr ∈ cfg.addrs then none
    else (step cfg w.sys (.recv fam caddr data tv)).map fun sys => { w with sys := sys }
  | .recvNone fam => (step cfg w.sys (.recvNone fam)).map fun sys => { w with sys := sys }
  | .recvDone fam => (step cfg w.sys (.recvDone fam)).map fun sys => { w with sys := sys }

/-! ## What holds in every state -/

/-- The address is once in the queue, or one reply to it is pending, or it is retired. -/
def Situated (w : Net) (a : Addr) : Prop :=
  w.sys.sendQ.elems.count a = 1 ∧ (w.pending a).length = 0 ∧ (w.sys.proto a).nsent ≠ 4 ∨
    w.sys.sendQ.elems.count a = 0 ∧ (w.pending a).length = 1 ∧ (w.sys.proto a).nsent ≠ 4 ∨
    w.sys.sendQ.elems.count a = 0 ∧ (w.pending a).length = 0 ∧ (w.sys.proto a).nsent = 4

/-- `rtt[k - 1]` is the round trip time of the reply to the `k`-th request, and every other
place is as `initIp` left it. -/
def Recorded (w : Net) (a : Addr) : Prop :=
  ∀ j, (w.sys.proto a).rtt j =
    if 0 ≤ j then (w.answered a (j.toNat + 1)).getD (-1) else -1

/-- Every address was sent three requests, and all threads leave their loops. -/
structure Finished (cfg : Config) (s : Sys) : Prop where
  sent : ∀ a ∈ cfg.addrs, (s.proto a).sent = 3
  totSendCnt : s.totSendCnt = 3 * cfg.uniqueCount
  count : ∀ fam, s.count fam - s.fail fam = 0
  sender : ∀ ok now s', step cfg s (.send ok now) = some s' → s'.sending = false
  receiver : ∀ fam, s.receiving fam = true →
    ∃ s', step cfg s (.recvDone fam) = some s' ∧ s'.receiving fam = false

/-! ## Sums over the addresses -/

/-- The sum of `f` over the protos. -/
def Config.total (cfg : Config) (f : Proto → ℤ) (s : Sys) : ℤ :=
  (cfg.addrs.map fun a => f (s.proto a)).sum

/-- 1 if the proto is of the family and not retired. -/
def unretired (fam : Family) (p : Proto) : ℤ :=
  if p.icmpproto = fam ∧ p.nsent ≠ 4 then 1 else 0

theorem sum_map_update {α β : Type*} [DecidableEq α] {l : List α} (hnd : l.Nodup) {a : α}
    (ha : a ∈ l) (f : β → ℤ) (g : α → β) (v : β) :
    (l.map fun b => f (Function.update g a v b)).sum =
      (l.map fun b => f (g b)).sum - f (g a) + f v := by
  obtain ⟨l₁, l₂, rfl⟩ := List.append_of_mem ha
  have hnot := (List.nodup_cons.1 (List.nodup_middle.1 hnd)).1
  have hkeep : ∀ b ∈ l₁ ++ l₂, f (Function.update g a v b) = f (g b) := fun b hb => by
    rw [Function.update_of_ne]
    rintro rfl
    exact hnot hb
  have hone := List.map_congr_left fun b hb => hkeep b (List.mem_append_left _ hb)
  have htwo := List.map_congr_left fun b hb => hkeep b (List.mem_append_right _ hb)
  simp only [List.map_append, List.map_cons, List.sum_append, List.sum_cons, hone, htwo,
    Function.update_self]
  omega

/-- Changing one proto changes the sum by the difference. -/
theorem total_update {cfg : Config} {s s' : Sys} {a : Addr} {p : Proto}
    (hs' : s'.proto = Function.update s.proto a p) (ha : a ∈ cfg.addrs) (f : Proto → ℤ) :
    cfg.total f s' = cfg.total f s - f (s.proto a) + f p := by
  unfold Config.total
  rw [hs']
  exact sum_map_update cfg.nodup ha f s.proto p

theorem total_eq_mul {cfg : Config} {s : Sys} {f : Proto → ℤ} {c : ℤ}
    (h : ∀ a ∈ cfg.addrs, f (s.proto a) = c) : cfg.total f s = c * cfg.uniqueCount := by
  unfold Config.total
  rw [List.map_congr_left h, List.map_const', List.sum_replicate, nsmul_eq_mul, mul_comm]
  rfl

/-! ## The invariant -/

/-- The situation of an address, from its proto, its places in the queue and its pending
requests. -/
inductive Phase (pid : ℕ) (p : Proto) : ℕ → List (ℕ × Request) → Prop where
  | queued (hn : p.nsent = p.sent) (hs : p.sent < 3) : Phase pid p 1 []
  | awaiting (r : Request) (hid : r.id = pid % 65536) (hn : p.nsent = p.sent) (hpos : 1 ≤ p.sent)
      (hs : p.sent ≤ 3) : Phase pid p 0 [(p.sent, r)]
  | retired (hn : p.nsent = 4) (hs : p.sent = 3) : Phase pid p 0 []

structure AddrInv (cfg : Config) (w : Net) (a : Addr) : Prop where
  icmpproto : (w.sys.proto a).icmpproto = a.family
  recorded : Recorded w a
  phase : Phase cfg.pid (w.sys.proto a) (w.sys.sendQ.elems.count a) (w.pending a)

structure NetInv (cfg : Config) (w : Net) : Prop where
  addr : ∀ a ∈ cfg.addrs, AddrInv cfg w a
  listed : w.sys.sendQ.elems ⊆ cfg.addrs
  pending : ∀ a, a ∉ cfg.addrs → w.pending a = []
  totSendCnt : w.sys.totSendCnt = cfg.total (fun p => p.sent) w.sys
  count : ∀ fam, w.sys.count fam = cfg.total (unretired fam) w.sys
  fail : ∀ fam, w.sys.fail fam = 0
  stopThreads : w.sys.stopThreads = false
  exited : w.sys.exited = false
  sending : w.sys.sending = true ∨ w.sys.totSendCnt = 3 * cfg.uniqueCount
  receiving : ∀ fam, w.sys.receiving fam = true ∨ w.sys.count fam ≤ 0

variable {cfg : Config} {w w' : Net}

theorem AddrInv.situated {a : Addr} (h : AddrInv cfg w a) : Situated w a := by
  obtain ⟨-, -, hphase⟩ := h
  unfold Situated
  generalize w.sys.sendQ.elems.count a = n at hphase
  generalize w.pending a = l at hphase
  cases hphase with
  | queued hn hs => exact .inl ⟨rfl, rfl, by omega⟩
  | awaiting r hid hn hpos hs => exact .inr (.inl ⟨rfl, rfl, by omega⟩)
  | retired hn hs => exact .inr (.inr ⟨rfl, rfl, hn⟩)

theorem netInv_start (cfg : Config) : NetInv cfg (.start cfg) where
  addr a ha := by
    refine ⟨rfl, fun j => by simp [Net.start, init, initIp], ?_⟩
    have hcount : (init cfg).sendQ.elems.count a = 1 := by
      rw [init_sendQ, List.count_reverse]
      exact List.count_eq_one_of_mem cfg.nodup ha
    simp only [Net.start, hcount]
    exact .queued rfl (by simp [init, initIp])
  listed := (inv_init cfg).listed
  pending _ _ := rfl
  totSendCnt := by
    rw [total_eq_mul (c := 0) fun a _ => rfl, zero_mul]
    rfl
  count fam := by
    have hcount : ∀ l : List Addr, ((l.countP fun a => a.family = fam : ℕ) : ℤ) =
        (l.map fun a => unretired fam (initIp a.family)).sum := by
      intro l
      induction l with
      | nil => rfl
      | cons a l ih =>
        rw [List.map_cons, List.sum_cons, ← ih, List.countP_cons]
        by_cases ha : a.family = fam
        · simp [unretired, initIp, ha, add_comm]
        · simp [unretired, initIp, ha]
    exact hcount cfg.addrs
  fail _ := rfl
  stopThreads := rfl
  exited := rfl
  sending := .inl rfl
  receiving _ := .inl rfl

/-- An address that a step does not touch. -/
theorem AddrInv.congr {a : Addr} (h : AddrInv cfg w a) (hproto : w'.sys.proto a = w.sys.proto a)
    (hcount : w'.sys.sendQ.elems.count a = w.sys.sendQ.elems.count a)
    (hpending : w'.pending a = w.pending a) (hanswered : w'.answered a = w.answered a) :
    AddrInv cfg w' a where
  icmpproto := by rw [hproto]; exact h.icmpproto
  recorded j := by rw [hproto, hanswered]; exact h.recorded j
  phase := by rw [hproto, hcount, hpending]; exact h.phase

/-- A step on one address `a`, which leaves its proto as `p`. -/
theorem NetInv.update (h : NetInv cfg w) {a : Addr} {p : Proto} (hlisted : a ∈ cfg.addrs)
    (hproto : w'.sys.proto = Function.update w.sys.proto a p) (haddr : AddrInv cfg w' a)
    (hother : ∀ b, b ≠ a → w'.sys.sendQ.elems.count b = w.sys.sendQ.elems.count b ∧
      w'.pending b = w.pending b ∧ w'.answered b = w.answered b)
    (hsub : w'.sys.sendQ.elems ⊆ cfg.addrs)
    (htot : w'.sys.totSendCnt = w.sys.totSendCnt - (w.sys.proto a).sent + p.sent)
    (hcount : ∀ fam, w'.sys.count fam =
      w.sys.count fam - unretired fam (w.sys.proto a) + unretired fam p)
    (hfail : w'.sys.fail = w.sys.fail) (hstop : w'.sys.stopThreads = w.sys.stopThreads)
    (hexited : w'.sys.exited = w.sys.exited)
    (hsending : w'.sys.sending = true ∨ w'.sys.totSendCnt = 3 * cfg.uniqueCount)
    (hreceiving : ∀ fam, w'.sys.receiving fam = true ∨ w'.sys.count fam ≤ 0) :
    NetInv cfg w' where
  addr b hb := by
    by_cases hba : b = a
    · exact hba ▸ haddr
    · obtain ⟨hq, hp, ha⟩ := hother b hba
      exact (h.addr b hb).congr (by rw [hproto, Function.update_of_ne hba]) hq hp ha
  listed := hsub
  pending b hb := by
    have hba : b ≠ a := by
      rintro rfl
      exact hb hlisted
    rw [(hother b hba).2.1]
    exact h.pending b hb
  totSendCnt := by rw [htot, h.totSendCnt, total_update hproto hlisted]
  count fam := by rw [hcount, h.count, total_update hproto hlisted]
  fail fam := by rw [hfail]; exact h.fail fam
  stopThreads := hstop.trans h.stopThreads
  exited := hexited.trans h.exited
  sending := hsending
  receiving := hreceiving

/-- Only the flags of the loops changed. -/
theorem NetInv.flags (h : NetInv cfg w) {sending : Bool} {receiving : Family → Bool}
    (hsending : sending = true ∨ w.sys.totSendCnt = 3 * cfg.uniqueCount)
    (hreceiving : ∀ fam, receiving fam = true ∨ w.sys.count fam ≤ 0) :
    NetInv cfg { w with sys := { w.sys with sending := sending, receiving := receiving } } where
  addr a ha := (h.addr a ha).congr rfl rfl rfl rfl
  listed := h.listed
  pending := h.pending
  totSendCnt := h.totSendCnt
  count := h.count
  fail := h.fail
  stopThreads := h.stopThreads
  exited := h.exited
  sending := hsending
  receiving := hreceiving

/-! ## The sender -/

/-- A queued address has no pending request. -/
theorem NetInv.queued (h : NetInv cfg w) {a : Addr} (ha : w.sys.sendQ.qFront = some a) :
    a ∈ cfg.addrs ∧ w.pending a = [] ∧ w.sys.sendQ.elems.tail.count a = 0 ∧
      (w.sys.proto a).nsent = (w.sys.proto a).sent ∧ (w.sys.proto a).sent < 3 := by
  have hel := Queue.elems_of_qFront ha
  have hlisted : a ∈ cfg.addrs := h.listed (hel ▸ List.mem_cons_self)
  have hphase := (h.addr a hlisted).phase
  rw [hel, List.count_cons_self] at hphase
  generalize hn : w.sys.sendQ.elems.tail.count a + 1 = n at hphase
  generalize hl : w.pending a = l at hphase
  cases hphase with
  | queued hns hs => exact ⟨hlisted, rfl, by omega, hns, hs⟩
  | awaiting r hid hns hpos hs => omega
  | retired hns hs => omega

/-- The state after a request was sent to the front of the queue. -/
theorem NetInv.sendJob (h : NetInv cfg w) {a : Addr} (ha : w.sys.sendQ.qFront = some a)
    (now : Timeval) (hsending : w.sys.sending = true) :
    NetInv cfg { w with
      sys := sendJob cfg w.sys a true now
      pending := Function.update w.pending a
        (((w.sys.proto a).sent + 1,
          (fsend (w.sys.proto a).icmpproto cfg.pid now (w.sys.proto a)).1) :: w.pending a) } := by
  obtain ⟨hlisted, hpending, htail, hn, hs⟩ := h.queued ha
  have hel := Queue.elems_of_qFront ha
  have hold := h.addr a hlisted
  simp only [Rtt.sendJob, fsend_snd, fsend_fst, if_true, hpending]
  refine h.update hlisted rfl ⟨?_, fun j => ?_, ?_⟩ (fun b hba => ⟨?_, ?_, rfl⟩) ?_ ?_
    (fun fam => ?_) rfl rfl rfl (.inl hsending) h.receiving
  · simpa using hold.icmpproto
  · simpa using hold.recorded j
  · simp only [Queue.elems_qPop, htail, Sys.setProto_proto, Function.update_self]
    exact .awaiting _ rfl (by simp [hn]) (by simp) (by simp only; omega)
  · simp only [Queue.elems_qPop]
    nth_rewrite 2 [hel]
    rw [List.count_cons_of_ne (Ne.symm hba)]
  · exact Function.update_of_ne hba ..
  · simp only [Queue.elems_qPop]
    exact fun b hb => h.listed (List.mem_of_mem_tail hb)
  · simp only [Sys.setProto, Nat.cast_add, Nat.cast_one]
    omega
  · have hold4 : (w.sys.proto a).nsent ≠ 4 := by omega
    have hnew4 : (w.sys.proto a).nsent + 1 ≠ 4 := by omega
    simp [unretired, hold4, hnew4, Sys.setProto]

/-- An iteration of the sender. -/
theorem NetInv.sendHelper (h : NetInv cfg w) (now : Timeval) (hsending : w.sys.sending = true) :
    NetInv cfg
      (match nextRequest cfg w.sys now with
      | some (a, kr) => { w with
          sys := sendHelper cfg w.sys true now
          pending := Function.update w.pending a (kr :: w.pending a) }
      | none => { w with sys := sendHelper cfg w.sys true now }) := by
  unfold nextRequest Rtt.sendHelper sendLocked
  cases ha : w.sys.sendQ.qFront with
  | some a =>
    have hjob := h.sendJob ha now hsending
    simp only [Option.map_some]
    split
    · rename_i htot
      exact hjob.flags (.inr htot) hjob.receiving
    · exact hjob
  | none =>
    have hstop : ¬w.sys.stopThreads = true := by simp [h.stopThreads]
    simp only [Option.map_none, if_neg hstop]
    split
    · rename_i htot
      exact h.flags (.inr htot) h.receiving
    · exact h

/-! ## The receivers -/

/-- `fproc` on a reply to one of the program's requests. -/
theorem fproc_reply {fam : Family} {pid : ℕ} {r : Request} {data : List UInt8}
    (hr : IsReply fam r data) (hid : r.id = pid % 65536) (p : Proto) (tv : Timeval) :
    fproc fam pid (buff data) data.length p tv =
      (0, p.setRtt (p.nsent - 1) (rttMs (tvSub tv r.time))) := by
  have hicmp : ∀ type icmp len, IsEchoReply type r icmp len →
      procIcmp type pid icmp len p tv = (0, p.setRtt (p.nsent - 1) (rttMs (tvSub tv r.time))) := by
    rintro type icmp len ⟨hlen, htype, hrid, -, htime⟩
    have hlong : ¬len < 8 ∧ ¬len < 16 := by
      unfold dataLen at hlen
      omega
    unfold procIcmp
    rw [if_neg hlong.1, if_pos htype, if_neg (by rw [hrid, hid]; simp), if_neg hlong.2, htime]
  cases fam with
  | v4 =>
    obtain ⟨hproto, hr⟩ := hr
    exact (if_neg (by simp [hproto])).trans (hicmp _ _ _ hr)
  | v6 => exact hicmp _ _ _ hr

/-- What is known of an address with a request that is pending. -/
theorem AddrInv.awaiting {a : Addr} {kr : ℕ × Request} (h : AddrInv cfg w a)
    (hkr : kr ∈ w.pending a) :
    w.sys.sendQ.elems.count a = 0 ∧ w.pending a = [kr] ∧ kr.2.id = cfg.pid % 65536 ∧
      (w.sys.proto a).nsent = kr.1 ∧ 1 ≤ kr.1 ∧ kr.1 ≤ 3 ∧ (w.sys.proto a).sent = kr.1 := by
  have hphase := h.phase
  generalize w.sys.sendQ.elems.count a = n at hphase
  generalize w.pending a = l at hphase hkr
  cases hphase with
  | queued hn hs => cases hkr
  | awaiting r hid hn hpos hs =>
    obtain rfl := List.mem_singleton.1 hkr
    exact ⟨rfl, rfl, hid, hn, hpos, hs, rfl⟩
  | retired hn hs => cases hkr

/-- The time of a reply is recorded in its place. -/
theorem AddrInv.recorded_update {a : Addr} {k : ℕ} (h : AddrInv cfg w a)
    (hn : (w.sys.proto a).nsent = k) (hpos : 1 ≤ k) (ms j : ℤ) :
    Function.update (w.sys.proto a).rtt ((w.sys.proto a).nsent - 1) ms j =
      if 0 ≤ j then (Function.update (w.answered a) k (some ms) (j.toNat + 1)).getD (-1)
      else -1 := by
  by_cases hj : j = (w.sys.proto a).nsent - 1
  · have hjk : j.toNat + 1 = k := by omega
    have hj0 : 0 ≤ j := by omega
    rw [hjk, Function.update_self, if_pos hj0, hj, Function.update_self]
    rfl
  · rw [Function.update_of_ne hj, h.recorded j]
    by_cases hj0 : 0 ≤ j
    · rw [if_pos hj0, if_pos hj0, Function.update_of_ne (by omega)]
    · rw [if_neg hj0, if_neg hj0]

/-- The state after the reply to a pending request was handled. -/
theorem NetInv.recvPacket (h : NetInv cfg w) {a : Addr} {kr : ℕ × Request} {data : List UInt8}
    (hkr : kr ∈ w.pending a) (hreply : IsReply a.family kr.2 data) (tv : Timeval)
    (hreceiving : w.sys.receiving a.family = true) :
    NetInv cfg
      { sys := recvPacket cfg a.family w.sys a data tv
        pending := Function.update w.pending a ((w.pending a).erase kr)
        answered := Function.update w.answered a
          (Function.update (w.answered a) kr.1 (some (rttMs (tvSub tv kr.2.time)))) } := by
  have hlisted : a ∈ cfg.addrs := by
    by_contra hnot
    rw [h.pending a hnot] at hkr
    cases hkr
  have hold := h.addr a hlisted
  obtain ⟨hcount, hpending, hid, hn, hpos, hs, hsent⟩ := hold.awaiting hkr
  have hrecorded := hold.recorded_update hn hpos (rttMs (tvSub tv kr.2.time))
  have hproc : Rtt.recvPacket cfg a.family w.sys a data tv = afterProc a.family w.sys a
      ((w.sys.proto a).setRtt ((w.sys.proto a).nsent - 1) (rttMs (tvSub tv kr.2.time))) := by
    rw [Rtt.recvPacket, if_pos hlisted, hold.icmpproto, fproc_reply hreply hid]
    rfl
  have hpend : ∀ b, b ≠ a →
      Function.update w.pending a ([] : List (ℕ × Request)) b = w.pending b ∧
        Function.update w.answered a (Function.update (w.answered a) kr.1
          (some (rttMs (tvSub tv kr.2.time)))) b = w.answered b :=
    fun b hba => ⟨Function.update_of_ne hba .., Function.update_of_ne hba ..⟩
  simp only [hproc, hpending, List.erase_cons_head]
  rcases lt_trichotomy (w.sys.proto a).nsent 3 with hlt | heq | hgt
  · rw [afterProc_of_lt (p := (w.sys.proto a).setRtt _ _) hlt]
    refine h.update hlisted rfl ⟨?_, fun j => ?_, ?_⟩ (fun b hba => ⟨?_, hpend b hba⟩)
      (List.cons_subset.2 ⟨hlisted, h.listed⟩) ?_ (fun fam => ?_) rfl rfl rfl h.sending h.receiving
    · simpa using hold.icmpproto
    · simpa using hrecorded j
    · simp only [Queue.elems_qPush, List.count_cons_self, hcount, Sys.setProto_proto,
        Function.update_self]
      exact .queued (by simp [hn, hsent]) (by simp only [Proto.setRtt_sent]; omega)
    · exact List.count_cons_of_ne (Ne.symm hba)
    · simp [Sys.setProto]
    · exact (sub_add_cancel _ _).symm
  · rw [afterProc_of_eq (p := (w.sys.proto a).setRtt _ _) heq]
    refine h.update hlisted rfl ⟨?_, fun j => ?_, ?_⟩ (fun b hba => ⟨rfl, hpend b hba⟩) h.listed ?_
      (fun fam => ?_) rfl rfl rfl h.sending (fun fam => ?_)
    · simpa using hold.icmpproto
    · simpa using hrecorded j
    · simp only [hcount, Sys.setProto_proto, Sys.setProto_sendQ, Function.update_self]
      exact .retired (by simp [heq]) (by simp only [Proto.setRtt_sent]; omega)
    · simp [Sys.setProto]
    · by_cases hfam : fam = a.family
      · subst hfam
        simp [unretired, hold.icmpproto, heq]
      · have hne : ¬a.family = fam := Ne.symm hfam
        simp [unretired, hold.icmpproto, hfam, hne]
    · by_cases hfam : fam = a.family
      · exact .inl (hfam ▸ hreceiving)
      · simp only [Function.update_of_ne hfam]
        exact h.receiving fam
  · omega

/-! ## Runs -/

theorem netInv_step (cfg : Config) (w : Net) (l : NetLabel) (w' : Net) (h : NetInv cfg w)
    (hstep : netStep cfg w l = some w') : NetInv cfg w' := by
  cases l with
  | send now =>
    obtain ⟨sys, hsys, rfl⟩ := Option.map_eq_some_iff.1 hstep
    obtain ⟨-, hsending, rfl⟩ := step_send.1 hsys
    exact h.sendHelper now hsending
  | reply a kr data tv =>
    obtain ⟨⟨hkr, hreply⟩, hmap⟩ := Option.ite_none_right_eq_some.1 hstep
    obtain ⟨sys, hsys, rfl⟩ := Option.map_eq_some_iff.1 hmap
    obtain ⟨-, ⟨hreceiving, -⟩, rfl⟩ := step_recv.1 hsys
    exact h.recvPacket hkr hreply tv hreceiving
  | foreign fam caddr data tv =>
    obtain ⟨hnot, hmap⟩ := Option.ite_none_left_eq_some.1 hstep
    obtain ⟨sys, hsys, rfl⟩ := Option.map_eq_some_iff.1 hmap
    obtain ⟨-, -, rfl⟩ := step_recv.1 hsys
    rw [Rtt.recvPacket, if_neg hnot]
    exact h
  | recvNone fam =>
    obtain ⟨sys, hsys, rfl⟩ := Option.map_eq_some_iff.1 hstep
    obtain ⟨-, -, rfl⟩ := step_recvNone.1 hsys
    rw [if_neg (by simp [h.stopThreads])]
    exact h
  | recvDone fam =>
    obtain ⟨sys, hsys, rfl⟩ := Option.map_eq_some_iff.1 hstep
    obtain ⟨-, ⟨-, hguard⟩, rfl⟩ := step_recvDone.1 hsys
    refine h.flags h.sending fun fam' => ?_
    by_cases hfam : fam' = fam
    · refine .inr ?_
      rw [hfam]
      unfold Sys.Waiting at hguard
      have := h.fail fam
      omega
    · rw [Function.update_of_ne hfam]
      exact h.receiving fam'

/-- When nothing is queued and nothing is pending, every address is done. -/
theorem NetInv.finished (h : NetInv cfg w) (hq : w.sys.sendQ.elems = [])
    (hpending : ∀ a ∈ cfg.addrs, w.pending a = []) : Finished cfg w.sys := by
  have hdone : ∀ a ∈ cfg.addrs, (w.sys.proto a).nsent = 4 ∧ (w.sys.proto a).sent = 3 := by
    intro a ha
    have hphase := (h.addr a ha).phase
    rw [hpending a ha, hq, List.count_nil] at hphase
    generalize hn : 0 = n at hphase
    generalize hl : ([] : List (ℕ × Request)) = l at hphase
    cases hphase with
    | queued => cases hn
    | awaiting => cases hl
    | retired hns hs => exact ⟨hns, hs⟩
  have htot : w.sys.totSendCnt = 3 * cfg.uniqueCount := by
    rw [h.totSendCnt]
    refine total_eq_mul fun a ha => ?_
    rw [(hdone a ha).2]
    rfl
  have hcount : ∀ fam, w.sys.count fam = 0 := by
    intro fam
    rw [h.count, total_eq_mul (c := 0), zero_mul]
    intro a ha
    simp [unretired, (hdone a ha).1]
  refine ⟨fun a ha => (hdone a ha).2, htot, fun fam => by rw [hcount, h.fail, sub_zero], ?_, ?_⟩
  · intro ok now s' hs'
    obtain ⟨-, -, rfl⟩ := step_send.1 hs'
    have hfront : w.sys.sendQ.qFront = none := by rw [Queue.qFront_eq, hq, List.head?_nil]
    have hlocked : sendLocked cfg w.sys ok now = w.sys := by
      simp [sendLocked, hfront, h.stopThreads]
    rw [Rtt.sendHelper, hlocked, if_pos htot]
  · intro fam hreceiving
    have hguard : ¬w.sys.Waiting fam := by
      unfold Sys.Waiting
      rw [hcount, h.fail]
      omega
    exact ⟨_, step_recvDone.2 ⟨h.exited, ⟨hreceiving, hguard⟩, rfl⟩, Function.update_self ..⟩

/-- On a well-behaved network, for every set of addresses and in every state reached, each
address is queued once, awaits one reply or is retired, the reply to its `k`-th request is
in `rtt[k - 1]` and nothing is anywhere else, and when nothing is queued or pending all
three threads have their target. -/
theorem delivered (cfg : Config) (ls : List NetLabel) (w : Net)
    (hr : run (netStep cfg) (.start cfg) ls = some w) :
    (∀ a ∈ cfg.addrs, Situated w a ∧ Recorded w a) ∧
      (w.sys.sendQ.elems = [] → (∀ a ∈ cfg.addrs, w.pending a = []) → Finished cfg w.sys) := by
  have h : NetInv cfg w := run_invariant_of_step (netInv_step cfg) (netInv_start cfg) hr
  exact ⟨fun a ha => ⟨(h.addr a ha).situated, (h.addr a ha).recorded⟩, h.finished⟩

/-- The `k`-th request to 127.0.0.1, sent at the time 0. -/
def loopbackRequest (k : ℕ) : ℕ × Request :=
  (k, ⟨8, 0, 7, k - 1, ⟨0, 0⟩⟩)

/-- The reply to it. -/
def loopbackReply (k : ℕ) : List UInt8 :=
  [0x45, 0, 0, 84, 0, 0, 0, 0, 64, 1, 0, 0, 127, 0, 0, 1, 127, 0, 0, 1] ++
    [0, 0, 0, 0, 7, 0, (k - 1).toUInt8, 0] ++ List.replicate 56 0

/-- Three requests to 127.0.0.1, answered after one, two and three milliseconds. -/
def loopbackRun : List NetLabel :=
  [.send ⟨0, 0⟩, .reply loopback (loopbackRequest 1) (loopbackReply 1) ⟨0, 1000⟩,
    .send ⟨0, 0⟩, .recvDone .v6,
    .reply loopback (loopbackRequest 2) (loopbackReply 2) ⟨0, 2000⟩,
    .send ⟨0, 0⟩, .reply loopback (loopbackRequest 3) (loopbackReply 3) ⟨0, 3000⟩]

theorem delivered_loopback : ∃ w, run (netStep loopbackConfig) (.start loopbackConfig) loopbackRun
    = some w ∧ Finished loopbackConfig w.sys := by
  have hsome : (run (netStep loopbackConfig) (.start loopbackConfig) loopbackRun).isSome := by
    decide
  obtain ⟨w, hw⟩ := Option.isSome_iff_exists.1 hsome
  have hend : (run (netStep loopbackConfig) (.start loopbackConfig) loopbackRun).map
      (fun w => (w.sys.sendQ.elems, w.pending loopback)) = some ([], []) := by decide
  rw [hw, Option.map_some, Option.some.injEq, Prod.mk.injEq] at hend
  refine ⟨w, hw, (delivered loopbackConfig loopbackRun w hw).2 hend.1 fun a ha => ?_⟩
  obtain rfl : a = loopback := List.mem_singleton.1 ha
  exact hend.2

end NetProg.Rtt
