import NetProg.Rtt.Retirement

/-!
# Packets that answer no request of this process

A raw socket gets a copy of every ICMP packet of the machine. `procV4` and `procV6` return
-1 for some of those that are not meant for this process, and -2, with the comment "ignore
message", for the others. A receiver ends the program at -1, and at -2 it goes on as after
a reply : `proc_res` is compared with -1 only.

A packet that is rejected with -1 ends the program. One that is ignored with -2 puts the
address back into the queue or retires it, unless the address is done already
(`unaffected_recvPacket_iff`). The write to `rtt[nsent - 1]` is then outside the array, and
is taken as changing no entry of it.
-/

namespace NetProg.Rtt

variable {cfg : Config} {s s' : Sys}

/-- The ICMP message is an echo reply with the id of the process, and long enough to hold
the time of the request. -/
def OwnIcmp (reply pid : ℕ) (icmp : Bytes) (icmpLen : ℤ) : Prop :=
  16 ≤ icmpLen ∧ (icmp 0).toNat = reply ∧ readLe icmp 4 2 = pid % 65536

/-- The packet is an echo reply to this process. -/
def Own : Family → ℕ → Bytes → ℤ → Prop
  | .v4, pid, ptr, len =>
    (ptr 9).toNat = 1 ∧
      OwnIcmp (echoReply .v4) pid (ptr.drop (headLen ptr)) (len - headLen ptr)
  | .v6, pid, ptr, len => OwnIcmp (echoReply .v6) pid ptr len

instance (reply pid : ℕ) (icmp : Bytes) (icmpLen : ℤ) :
    Decidable (OwnIcmp reply pid icmp icmpLen) :=
  inferInstanceAs (Decidable (_ ∧ _))

instance : ∀ fam pid ptr len, Decidable (Own fam pid ptr len)
  | .v4, _, _, _ => inferInstanceAs (Decidable (_ ∧ _))
  | .v6, _, _, _ => inferInstanceAs (Decidable (OwnIcmp ..))

/-- The protos, the queue and the counts are as before, and the program goes on. -/
structure Unaffected (s s' : Sys) : Prop where
  rtt : ∀ a i, 0 ≤ i → i < 3 → (s'.proto a).rtt i = (s.proto a).rtt i
  nsent : ∀ a, (s'.proto a).nsent = (s.proto a).nsent
  sendQ : s'.sendQ = s.sendQ
  count : s'.count = s.count
  exited : s'.exited = s.exited

/-- The label is a foreign packet from a listed address. -/
def IsForeign (cfg : Config) : Label → Prop
  | .recv fam caddr data _ =>
    caddr ∈ cfg.addrs ∧ ¬Own fam cfg.pid (buff data) data.length
  | _ => False

/-- A foreign packet leaves everything as it was. -/
def IgnoresForeign (cfg : Config) (s : Sys) (l : Label) : Prop :=
  IsForeign cfg l → ∀ s', step cfg s l = some s' → Unaffected s s'

/-- A foreign packet is not rejected, and its address is done. -/
def Harmless (cfg : Config) (s : Sys) : Label → Prop
  | .recv fam caddr data tv =>
    IsForeign cfg (.recv fam caddr data tv) →
      ¬Rejects fam cfg.pid (buff data) data.length ∧ 4 ≤ (s.proto caddr).nsent
  | _ => True

instance (cfg : Config) : ∀ l, Decidable (IsForeign cfg l)
  | .recv .. => inferInstanceAs (Decidable (_ ∧ _))
  | .send .. | .recvNone _ | .recvDone _ | .alarm => .isFalse id

instance (cfg : Config) (s : Sys) : ∀ l, Decidable (Harmless cfg s l)
  | .recv .. => inferInstanceAs (Decidable (_ → _))
  | .send .. | .recvNone _ | .recvDone _ | .alarm => .isTrue trivial

/-! ## One packet -/

/-- After a packet that was not rejected only a done address is as before. -/
theorem unaffected_afterProc_iff {fam : Family} {caddr : Addr} {p : Proto}
    (hnsent : p.nsent = (s.proto caddr).nsent)
    (hrtt : 4 ≤ p.nsent → ∀ i, 0 ≤ i → i < 3 → p.rtt i = (s.proto caddr).rtt i) :
    Unaffected s (afterProc fam s caddr p) ↔ 4 ≤ (s.proto caddr).nsent := by
  rcases lt_trichotomy p.nsent 3 with hlt | h3 | hgt
  · refine iff_of_false (fun h => ?_) (by omega)
    have hcount := congrArg Queue.count h.sendQ
    rw [afterProc_of_lt hlt] at hcount
    simp only [Queue.qPush] at hcount
    omega
  · refine iff_of_false (fun h => ?_) (by omega)
    have hcount := congrFun h.count fam
    rw [afterProc_of_eq h3] at hcount
    simp only [Function.update_self] at hcount
    omega
  rw [afterProc_of_gt hgt]
  refine iff_of_true ⟨fun a i hlow hhigh => ?_, fun a => ?_, rfl, rfl, rfl⟩ (by omega)
  · by_cases ha : a = caddr
    · subst ha
      rw [Sys.setProto_proto, Function.update_self]
      exact hrtt (by omega) i hlow hhigh
    · rw [Sys.setProto_proto, Function.update_of_ne ha]
  · by_cases ha : a = caddr
    · subst ha
      rw [Sys.setProto_proto, Function.update_self, hnsent]
    · rw [Sys.setProto_proto, Function.update_of_ne ha]

/-- A packet from a listed address leaves everything as it was if and only if it is not
rejected and the address is done. -/
theorem unaffected_recvPacket_iff {fam : Family} {caddr : Addr} {data : List UInt8} {tv : Timeval}
    (hlisted : caddr ∈ cfg.addrs) (hproto : (s.proto caddr).icmpproto = fam)
    (hexited : s.exited = false) :
    Unaffected s (recvPacket cfg fam s caddr data tv) ↔
      ¬Rejects fam cfg.pid (buff data) data.length ∧ 4 ≤ (s.proto caddr).nsent := by
  rcases fproc_cases (s.proto caddr).icmpproto cfg.pid (buff data) data.length (s.proto caddr) tv
    with ⟨hrej, heq⟩ | ⟨hacc, -⟩
  · rw [hproto] at hrej
    refine iff_of_false (fun h => ?_) fun h => h.1 hrej
    have hexit := h.exited
    rw [recvPacket, if_pos hlisted, heq, if_pos rfl, hexited] at hexit
    cases hexit
  · obtain ⟨v, heq⟩ := recvPacket_accepted fam tv hlisted hacc
    rw [hproto] at hacc
    rw [heq, and_iff_right hacc]
    refine unaffected_afterProc_iff rfl fun hdone i _ hhigh => ?_
    rw [Proto.setRtt_nsent] at hdone
    exact Function.update_of_ne (by omega) ..

theorem ignoresForeign_iff {l : Label} (hproto : ∀ a, (s.proto a).icmpproto = a.family)
    (hstep : step cfg s l = some s') : IgnoresForeign cfg s l ↔ Harmless cfg s l := by
  cases l with
  | recv fam caddr data tv =>
    obtain ⟨hexited, ⟨-, -, hfam, -, -⟩, rfl⟩ := step_recv.1 hstep
    refine forall_congr' fun hforeign => ?_
    rw [hstep]
    simp only [Option.some.injEq, forall_eq']
    exact unaffected_recvPacket_iff hforeign.1 ((hproto caddr).trans hfam) hexited
  | send | recvNone | recvDone | alarm => exact iff_of_true nofun trivial

/-! ## Runs -/

/-- 127.0.0.1 and 127.0.0.2. -/
def twoConfig : Config :=
  ⟨7, [loopback, .v4 0x7f000002], by decide⟩

/-- The second address answers nothing. The first one is done when the request of another
ping process to it arrives. -/
def doneRun : List Label :=
  [.send true ⟨1, 0⟩, .send true ⟨1, 0⟩, .recv .v4 loopback (loopbackPacket 0) ⟨2, 0⟩,
    .send true ⟨3, 0⟩, .recv .v4 loopback (loopbackPacket 0) ⟨4, 0⟩, .send true ⟨5, 0⟩,
    .recv .v4 loopback (loopbackPacket 0) ⟨6, 0⟩, .recv .v4 loopback (loopbackPacket 8) ⟨7, 0⟩]

/-- An echo reply to the process 8, which arrives while the process 7 waits for its own. -/
def otherReply : List Label :=
  [.send true ⟨1, 0⟩, .recv .v4 loopback
    ((loopbackPacket 0).set 24 8) ⟨2, 0⟩]

end NetProg.Rtt
