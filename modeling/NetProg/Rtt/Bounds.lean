import NetProg.Rtt.Scheduler

/-!
# The scheduler under an arbitrary network

`Bounded` is what the design of the scheduler needs : no address is sent more than three
echo requests, none is in the queue twice, and every index used on `rtt` is in range.
The sender keeps it whatever `sendto` returns (`Inv.sendHelper`). A receiver keeps it for a
packet that arrives while a request to its address is outstanding, and breaks it at once
for any other packet that it does not reject : before the first request the index is -1,
after the last it is 3, and in between the address is pushed a second time.
`bounded_iff` puts this together for runs.
-/

namespace NetProg.Rtt

variable {cfg : Config} {s s' : Sys}

/-- No address is sent more than three requests or queued twice, and the indices used on
`rtt` are 0, 1 and 2. -/
structure Bounded (cfg : Config) (s : Sys) : Prop where
  sent : ∀ a ∈ cfg.addrs, (s.proto a).sent ≤ 3
  queued : ∀ a ∈ cfg.addrs, s.sendQ.elems.count a ≤ 1
  indices : ∀ a ∈ cfg.addrs, ∀ i ∈ (s.proto a).indices, i = 0 ∨ i = 1 ∨ i = 2

/-- A packet that a receiver handles arrives while a request to the address is outstanding
and the address is not queued for the next one. -/
def Expected (cfg : Config) (s : Sys) : Label → Prop
  | .recv _ caddr data _ =>
    caddr ∈ cfg.addrs →
      ¬Rejects (s.proto caddr).icmpproto cfg.pid (buff data) data.length →
        1 ≤ (s.proto caddr).nsent ∧ (s.proto caddr).nsent ≤ 3 ∧
          ((s.proto caddr).nsent < 3 → caddr ∉ s.sendQ.elems)
  | _ => True

instance (cfg : Config) (s : Sys) : ∀ l, Decidable (Expected cfg s l)
  | .recv .. => inferInstanceAs (Decidable (_ → _ → _))
  | .send .. | .recvNone _ | .recvDone _ | .alarm => .isTrue trivial

/-! ## The invariant -/

/-- One address : `nsent` is at least the number of requests sent, and a queued address has
one to go. -/
structure ProtoInv (p : Proto) (queued : Prop) : Prop where
  le_nsent : (p.sent : ℤ) ≤ p.nsent
  sent : p.sent ≤ 3
  toGo : queued → p.sent ≤ 2
  indices : ∀ i ∈ p.indices, i = 0 ∨ i = 1 ∨ i = 2

structure Inv (cfg : Config) (s : Sys) : Prop where
  nodup : s.sendQ.elems.Nodup
  listed : s.sendQ.elems ⊆ cfg.addrs
  proto : ∀ a, ProtoInv (s.proto a) (a ∈ s.sendQ.elems)

theorem inv_init (cfg : Config) : Inv cfg (init cfg) where
  nodup := by
    rw [init_sendQ]
    exact List.nodup_reverse.2 cfg.nodup
  listed := by
    rw [init_sendQ]
    exact List.reverse_subset.2 (List.Subset.refl _)
  proto a := ⟨le_rfl, by simp [init, initIp], by simp [init, initIp], by simp [init, initIp]⟩

theorem Inv.bounded (h : Inv cfg s) : Bounded cfg s where
  sent a _ := (h.proto a).sent
  queued a _ := List.nodup_iff_count_le_one.1 h.nodup a
  indices a _ := (h.proto a).indices

/-- The invariant does not look at the counters and flags. -/
theorem Inv.congr (h : Inv cfg s) (hproto : s'.proto = s.proto) (hq : s'.sendQ = s.sendQ) :
    Inv cfg s' where
  nodup := by rw [hq]; exact h.nodup
  listed := by rw [hq]; exact h.listed
  proto a := by rw [hproto, hq]; exact h.proto a

/-- Change one address, and the queue in that address only. -/
theorem Inv.setProto (h : Inv cfg s) {a : Addr} {p : Proto} (hproto : s'.proto = Function.update s.proto a p)
    (hnd : s'.sendQ.elems.Nodup) (hsub : s'.sendQ.elems ⊆ cfg.addrs)
    (hq : ∀ b, b ≠ a → (b ∈ s'.sendQ.elems ↔ b ∈ s.sendQ.elems))
    (hp : ProtoInv p (a ∈ s'.sendQ.elems)) : Inv cfg s' where
  nodup := hnd
  listed := hsub
  proto b := by
    rw [hproto]
    by_cases hb : b = a
    · subst hb
      rwa [Function.update_self]
    · rw [Function.update_of_ne hb, hq b hb]
      exact h.proto b

/-! ## The sender -/

/-- The front of the queue is sent a request, and is popped or stays. -/
theorem Inv.sendJob (h : Inv cfg s) {a : Addr} (ha : s.sendQ.qFront = some a) (ok : Bool)
    (now : Timeval) : Inv cfg (sendJob cfg s a ok now) := by
  have hel := Queue.elems_of_qFront ha
  have hnd : a ∉ s.sendQ.elems.tail ∧ s.sendQ.elems.tail.Nodup :=
    List.nodup_cons.1 (hel ▸ h.nodup)
  have hmem : a ∈ s.sendQ.elems := hel ▸ List.mem_cons_self
  have hsub : s.sendQ.qPop.elems ⊆ cfg.addrs := by
    rw [Queue.elems_qPop]
    exact fun b hb => h.listed (List.mem_of_mem_tail hb)
  have hpop : ∀ b, b ≠ a → (b ∈ s.sendQ.qPop.elems ↔ b ∈ s.sendQ.elems) := fun b hb => by
    rw [Queue.elems_qPop]
    nth_rewrite 2 [hel]
    simp [hb]
  obtain ⟨hle, hsent, htoGo, hind⟩ := h.proto a
  have htwo := htoGo hmem
  simp only [Rtt.sendJob, fsend_snd]
  split
  · refine h.setProto rfl (by simpa using hnd.2) hsub hpop ⟨?_, ?_, ?_, hind⟩
    · simp only [Nat.cast_add, Nat.cast_one]
      omega
    · simp only
      omega
    · simp [hnd.1]
  split
  · refine h.setProto rfl (by simpa using hnd.2) hsub hpop ⟨?_, hsent, ?_, hind⟩
    · simp only
      omega
    · simp [hnd.1]
  split
  · rename_i hlt
    refine h.setProto rfl h.nodup h.listed (fun _ _ => Iff.rfl) ⟨?_, hsent, fun _ => htwo, ?_⟩
    · simp only [Proto.setRtt_sent]
      omega
    · -- the index is `nsent` after `fsend` counted it up
      intro i hi
      rcases List.mem_cons.1 hi with rfl | hi
      · omega
      · exact hind i hi
  · refine h.setProto rfl h.nodup h.listed (fun _ _ => Iff.rfl) ⟨?_, hsent, fun _ => htwo, hind⟩
    simp only
    omega

/-- The sender keeps the invariant, whatever `sendto` returns. -/
theorem Inv.sendHelper (h : Inv cfg s) (ok : Bool) (now : Timeval) :
    Inv cfg (sendHelper cfg s ok now) := by
  have hlocked : Inv cfg (sendLocked cfg s ok now) := by
    unfold sendLocked
    cases ha : s.sendQ.qFront with
    | some a => exact h.sendJob ha ok now
    | none =>
      simp only
      split
      · exact h.congr rfl rfl
      · exact h
  unfold Rtt.sendHelper
  split
  · exact hlocked.congr rfl rfl
  · exact hlocked

/-! ## The receivers -/

/-- What a receiver does with a packet that it does not reject. -/
theorem recvPacket_accepted (fam : Family) {caddr : Addr} {data : List UInt8} (tv : Timeval)
    (hlisted : caddr ∈ cfg.addrs)
    (hacc : ¬Rejects (s.proto caddr).icmpproto cfg.pid (buff data) data.length) :
    ∃ v, recvPacket cfg fam s caddr data tv =
      afterProc fam s caddr ((s.proto caddr).setRtt ((s.proto caddr).nsent - 1) v) := by
  rcases fproc_cases (s.proto caddr).icmpproto cfg.pid (buff data) data.length (s.proto caddr) tv
    with ⟨hrej, -⟩ | ⟨-, res, v, hres, heq⟩
  · exact absurd hrej hacc
  · refine ⟨v, ?_⟩
    rw [recvPacket, if_pos hlisted, heq]
    exact if_neg hres

/-- A receiver keeps the invariant for a packet that was expected. -/
theorem Inv.recvPacket (h : Inv cfg s) (fam : Family) (caddr : Addr) (data : List UInt8)
    (tv : Timeval) (hexp : Expected cfg s (.recv fam caddr data tv)) :
    Inv cfg (recvPacket cfg fam s caddr data tv) := by
  by_cases hlisted : caddr ∈ cfg.addrs
  case neg =>
    rw [Rtt.recvPacket, if_neg hlisted]
    exact h
  rcases fproc_cases (s.proto caddr).icmpproto cfg.pid (buff data) data.length (s.proto caddr) tv
    with ⟨-, heq⟩ | ⟨hacc, -⟩
  · rw [Rtt.recvPacket, if_pos hlisted, heq]
    exact h.congr rfl rfl
  obtain ⟨hlow, hhigh, hnot⟩ := hexp hlisted hacc
  obtain ⟨v, heq⟩ := recvPacket_accepted fam tv hlisted hacc
  obtain ⟨hle, hsent, htoGo, hind⟩ := h.proto caddr
  have hind' : ∀ i ∈ ((s.proto caddr).setRtt ((s.proto caddr).nsent - 1) v).indices,
      i = 0 ∨ i = 1 ∨ i = 2 := by
    intro i hi
    rcases List.mem_cons.1 hi with rfl | hi
    · omega
    · exact hind i hi
  rw [heq]
  rcases lt_trichotomy (s.proto caddr).nsent 3 with hlt | h3 | hgt
  · rw [afterProc_of_lt (p := (s.proto caddr).setRtt _ v) hlt]
    refine h.setProto rfl ?_ ?_ ?_ ⟨hle, hsent, fun _ => ?_, hind'⟩
    · exact List.nodup_cons.2 ⟨hnot hlt, h.nodup⟩
    · exact List.cons_subset.2 ⟨hlisted, h.listed⟩
    · intro b hb
      simp [hb]
    · simp only [Proto.setRtt_sent]
      omega
  · rw [afterProc_of_eq (p := (s.proto caddr).setRtt _ v) h3]
    refine h.setProto rfl h.nodup h.listed (fun _ _ => Iff.rfl) ⟨?_, hsent, htoGo, hind'⟩
    simp only [Proto.setRtt_sent, Proto.setRtt_nsent]
    omega
  · rw [afterProc_of_gt (p := (s.proto caddr).setRtt _ v) hgt]
    exact h.setProto rfl h.nodup h.listed (fun _ _ => Iff.rfl) ⟨hle, hsent, htoGo, hind'⟩

/-- It breaks `Bounded` for a packet that was not. -/
theorem not_bounded_recvPacket {fam : Family} {caddr : Addr} {data : List UInt8} {tv : Timeval}
    (hexp : ¬Expected cfg s (.recv fam caddr data tv)) :
    ¬Bounded cfg (recvPacket cfg fam s caddr data tv) := by
  unfold Expected at hexp
  push Not at hexp
  obtain ⟨hlisted, hacc, hrange⟩ := hexp
  obtain ⟨v, heq⟩ := recvPacket_accepted fam tv hlisted hacc
  rw [heq]
  intro hb
  -- whatever branch is taken, the index used is in the log
  have hindex : (s.proto caddr).nsent - 1 = 0 ∨ (s.proto caddr).nsent - 1 = 1 ∨
      (s.proto caddr).nsent - 1 = 2 := by
    refine hb.indices caddr hlisted _ ?_
    rcases lt_trichotomy (s.proto caddr).nsent 3 with hlt | h3 | hgt
    · simp [afterProc_of_lt (p := (s.proto caddr).setRtt _ v) hlt]
    · simp [afterProc_of_eq (p := (s.proto caddr).setRtt _ v) h3]
    · simp [afterProc_of_gt (p := (s.proto caddr).setRtt _ v) hgt]
  obtain ⟨hlt, hmem⟩ := hrange (by omega) (by omega)
  have hcount := hb.queued caddr hlisted
  rw [afterProc_of_lt (p := (s.proto caddr).setRtt _ v) hlt, Queue.elems_qPush, List.count_cons_self] at hcount
  have := List.one_le_count_iff.2 hmem
  omega

/-! ## Runs -/

theorem inv_step (cfg : Config) (s : Sys) (l : Label) (s' : Sys) (h : Inv cfg s)
    (hexp : Expected cfg s l) (hstep : step cfg s l = some s') : Inv cfg s' := by
  cases l with
  | send ok now =>
    obtain ⟨-, -, rfl⟩ := step_send.1 hstep
    exact h.sendHelper ok now
  | recv fam caddr data tv =>
    obtain ⟨-, -, rfl⟩ := step_recv.1 hstep
    exact h.recvPacket fam caddr data tv hexp
  | recvNone fam =>
    obtain ⟨-, -, rfl⟩ := step_recvNone.1 hstep
    split
    · exact h.congr rfl rfl
    · exact h
  | recvDone fam =>
    obtain ⟨-, -, rfl⟩ := step_recvDone.1 hstep
    exact h.congr rfl rfl
  | alarm =>
    obtain ⟨-, rfl⟩ := step_alarm.1 hstep
    exact h.congr rfl rfl

theorem not_bounded_step (cfg : Config) (s : Sys) (l : Label) (s' : Sys) (hexp : ¬Expected cfg s l)
    (hstep : step cfg s l = some s') : ¬Bounded cfg s' := by
  cases l with
  | recv fam caddr data tv =>
    obtain ⟨-, -, rfl⟩ := step_recv.1 hstep
    exact not_bounded_recvPacket hexp
  | send | recvNone | recvDone | alarm => exact absurd trivial hexp

/-- For every set of addresses and every run, no address is sent more than three requests,
none is queued twice and every index used on `rtt` is in range, if and only if no packet
from a listed address is handled while nothing is outstanding for it. -/
theorem bounded_iff (cfg : Config) (ls : List Label) (hr : (run (step cfg) (init cfg) ls).isSome) :
    Along (step cfg) (Bounded cfg) (init cfg) ls ↔
      StepsMeet (step cfg) (Expected cfg) (init cfg) ls :=
  along_iff_stepsMeet (fun _ => Inv.bounded) (inv_step cfg)
    (fun s l s' _ => not_bounded_step cfg s l s') (inv_init cfg) hr

/-- The address 127.0.0.1. -/
def loopback : Addr :=
  .v4 0x7f000001

def loopbackConfig : Config :=
  ⟨7, [loopback], by simp⟩

/-- An ICMP message of the given type from 127.0.0.1 with the id 7. -/
def loopbackPacket (type : UInt8) : List UInt8 :=
  [0x45, 0, 0, 84, 0, 0, 0, 0, 64, 1, 0, 0, 127, 0, 0, 1, 127, 0, 0, 1] ++
    [type, 0, 0, 0, 7, 0, 0, 0] ++ List.replicate 56 0

/-- Each request is answered by one reply. -/
theorem bounded_replies : Along (step loopbackConfig) (Bounded loopbackConfig) (init loopbackConfig)
    [.send true ⟨1, 0⟩, .recv .v4 loopback (loopbackPacket 0) ⟨2, 0⟩, .send true ⟨3, 0⟩,
      .recv .v4 loopback (loopbackPacket 0) ⟨4, 0⟩, .recvDone .v6, .send true ⟨5, 0⟩,
      .recv .v4 loopback (loopbackPacket 0) ⟨6, 0⟩, .recvDone .v4] :=
  (bounded_iff loopbackConfig _ (by decide)).2 (by decide)

/-- The receiver gets the request that was sent to 127.0.0.1, and then the reply. -/
def loopedBack : List Label :=
  [.send true ⟨1, 0⟩, .recv .v4 loopback (loopbackPacket 8) ⟨2, 0⟩,
    .recv .v4 loopback (loopbackPacket 0) ⟨2, 0⟩]

theorem not_bounded_loopedBack :
    (run (step loopbackConfig) (init loopbackConfig) loopedBack).isSome ∧
      ¬Along (step loopbackConfig) (Bounded loopbackConfig) (init loopbackConfig) loopedBack := by
  have hsome : (run (step loopbackConfig) (init loopbackConfig) loopedBack).isSome := by decide
  obtain ⟨s, hs⟩ := Option.isSome_iff_exists.1 hsome
  refine ⟨hsome, fun h => ?_⟩
  have hcount := (h.last hs).queued loopback (by simp [loopbackConfig])
  have htwo : (run (step loopbackConfig) (init loopbackConfig) loopedBack).map
      (fun s => s.sendQ.elems.count loopback) = some 2 := by decide
  rw [hs, Option.map_some, Option.some.injEq] at htwo
  omega

end NetProg.Rtt
