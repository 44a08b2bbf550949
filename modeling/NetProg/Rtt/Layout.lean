import NetProg.Rtt.Attempts

/-!
# The proto in memory

The eight bytes in front of `rtt` in `struct proto` are `fd` and `nsent`. A packet that a
receiver handles while `nsent` is 0 is stored in `rtt[-1]`, and what is then in `nsent` is the
upper half of a `double` : for -1 a number below -2 ^ 30. The next send that fails writes to
`rtt[nsent]`, where there is no memory, and the program ends inside of `sendHelper`.

`stepMem` is `step` with these writes. As long as no packet is handled that early the two are
the same (`stepMem_eq`), and the sender stops (`sender_stops`). An index behind the array is
taken to hit no field, as in `Rtt.Proto`.
-/

namespace NetProg.Rtt

/-! ## Steps with memory -/

/-- `proto->rtt[i] = v`, where `struct proto` has it. It fails further in front of `rtt`. -/
def Proto.storeRtt (p : Proto) (i v : ℤ) : Option Proto :=
  if i < -1 then none
  else if i = -1 then some { p.setRtt i v with nsent := Lib.doubleHigh v }
  else some (p.setRtt i v)

theorem Proto.storeRtt_of_nonneg (p : Proto) {i : ℤ} (h : 0 ≤ i) (v : ℤ) :
    p.storeRtt i v = some (p.setRtt i v) := by
  rw [storeRtt, if_neg (by omega), if_neg (by omega)]

/-- `proto->fproc`, with its write to `rtt[nsent - 1]`. -/
def fprocMem (fam : Family) (pid : ℕ) (ptr : Bytes) (len : ℤ) (p : Proto) (tvrecv : Timeval) :
    Option (ℤ × Proto) :=
  let r := fproc fam pid ptr len p tvrecv
  if r.1 = -1 then some r
  else (p.storeRtt (p.nsent - 1) (r.2.rtt (p.nsent - 1))).map fun q => (r.1, q)

/-- `recvPacket`, with the write of `fproc`. -/
def recvPacketMem (cfg : Config) (fam : Family) (s : Sys) (caddr : Addr) (data : List UInt8)
    (tv : Timeval) : Option Sys :=
  if caddr ∈ cfg.addrs then
    (fprocMem (s.proto caddr).icmpproto cfg.pid (buff data) data.length (s.proto caddr) tv).map
      fun r => if r.1 = -1 then { s with exited := true } else afterProc fam s caddr r.2
  else some s

/-- `sendJob`, with the write of a retry to `rtt[nsent]`. -/
def sendJobMem (cfg : Config) (s : Sys) (a : Addr) (ok : Bool) (now : Timeval) : Option Sys :=
  let p := (fsend (s.proto a).icmpproto cfg.pid now (s.proto a)).2
  let p := { p with tries := p.tries + 1 }
  if ok = false ∧ p.nsent < 3 then
    (p.storeRtt p.nsent (-1)).map fun q =>
      { s with totSendCnt := s.totSendCnt + 1 }.setProto a { q with nsent := q.nsent + 1 }
  else some (sendJob cfg s a ok now)

/-- What `sendHelper` does under the mutex. -/
def sendLockedMem (cfg : Config) (s : Sys) (ok : Bool) (now : Timeval) : Option Sys :=
  match s.sendQ.qFront with
  | some a => sendJobMem cfg s a ok now
  | none => some (sendLocked cfg s ok now)

/-- One iteration of `sendHelper`. -/
def sendHelperMem (cfg : Config) (s : Sys) (ok : Bool) (now : Timeval) : Option Sys :=
  (sendLockedMem cfg s ok now).map fun s =>
    if s.totSendCnt = 3 * cfg.uniqueCount then { s with sending := false } else s

/-- One step of the program. It is not possible where a write goes to no memory. -/
def stepMem (cfg : Config) (s : Sys) (l : Label) : Option Sys :=
  if (step cfg s l).isSome then
    match l with
    | .send ok now => sendHelperMem cfg s ok now
    | .recv fam caddr data tv => recvPacketMem cfg fam s caddr data tv
    | l => step cfg s l
  else none

/-- No packet is handled before the first request to its address was counted. -/
def Timely (cfg : Config) (s : Sys) : Label → Prop
  | .recv _ caddr data _ =>
    caddr ∈ cfg.addrs → (s.proto caddr).nsent = 0 →
      Rejects (s.proto caddr).icmpproto cfg.pid (buff data) data.length
  | _ => True

instance (cfg : Config) (s : Sys) : ∀ l, Decidable (Timely cfg s l)
  | .recv _ _ _ _ => inferInstanceAs (Decidable (_ → _ → _))
  | .send _ _ | .recvNone _ | .recvDone _ | .alarm => .isTrue trivial

/-- `nsent` of no address has been overwritten. -/
def NsentNonneg (s : Sys) : Prop :=
  ∀ a, 0 ≤ (s.proto a).nsent

variable {cfg : Config} {s s' : Sys}

/-! ## The two steps are the same -/

theorem sendJobMem_eq (h : NsentNonneg s) (a : Addr) (ok : Bool) (now : Timeval) :
    sendJobMem cfg s a ok now = some (sendJob cfg s a ok now) := by
  have hnonneg := h a
  unfold sendJobMem sendJob
  dsimp only
  rw [fsend_snd]
  dsimp only
  split
  · rename_i hretry
    obtain ⟨hok, hlt⟩ := hretry
    rw [Proto.storeRtt_of_nonneg _ (by omega), Option.map_some, if_neg (by simp [hok]),
      if_neg (by omega), if_pos hlt]
    rfl
  · rfl

theorem sendHelperMem_eq (h : NsentNonneg s) (ok : Bool) (now : Timeval) :
    sendHelperMem cfg s ok now = some (sendHelper cfg s ok now) := by
  have hlocked : sendLockedMem cfg s ok now = some (sendLocked cfg s ok now) := by
    unfold sendLockedMem
    cases hq : s.sendQ.qFront with
    | none => rfl
    | some a =>
      rw [sendLocked, hq]
      exact sendJobMem_eq h a ok now
  rw [sendHelperMem, hlocked]
  rfl

theorem recvPacketMem_eq (h : NsentNonneg s) {fam : Family} {caddr : Addr} {data : List UInt8}
    {tv : Timeval} (ht : Timely cfg s (.recv fam caddr data tv)) :
    recvPacketMem cfg fam s caddr data tv = some (recvPacket cfg fam s caddr data tv) := by
  have hnonneg := h caddr
  unfold recvPacketMem recvPacket fprocMem
  split
  · rename_i hlisted
    rcases fproc_cases (s.proto caddr).icmpproto cfg.pid (buff data) data.length (s.proto caddr) tv
      with ⟨-, heq⟩ | ⟨hhandled, res, v, hres, heq⟩
    · rw [heq]
      rfl
    · have hsent : (s.proto caddr).nsent ≠ 0 := fun hzero => hhandled (ht hlisted hzero)
      rw [heq]
      dsimp only
      rw [if_neg hres, Proto.setRtt_rtt, Function.update_self,
        Proto.storeRtt_of_nonneg _ (by omega)]
      rfl
  · rfl

/-- As long as no packet is handled early, the writes go where `step` has them. -/
theorem stepMem_eq (s : Sys) (l : Label) (h : NsentNonneg s) (ht : Timely cfg s l) :
    stepMem cfg s l = step cfg s l := by
  unfold stepMem
  cases hstep : step cfg s l with
  | none => rfl
  | some s' =>
    rw [Option.isSome_some, if_pos rfl]
    cases l with
    | send ok now =>
      obtain ⟨-, -, rfl⟩ := step_send.1 hstep
      exact sendHelperMem_eq h ok now
    | recv fam caddr data tv =>
      obtain ⟨-, -, rfl⟩ := step_recv.1 hstep
      exact recvPacketMem_eq h ht
    | recvNone | recvDone | alarm => exact hstep

/-- `nsent` only grows. -/
theorem nsentNonneg_step (s : Sys) (l : Label) (s' : Sys) (h : NsentNonneg s)
    (hstep : step cfg s l = some s') : NsentNonneg s' := by
  have hupdate : ∀ a p, (s.proto a).nsent ≤ p.nsent →
      s'.proto = Function.update s.proto a p → NsentNonneg s' := by
    intro a p hp hproto b
    rw [hproto]
    by_cases hb : b = a
    · subst hb
      rw [Function.update_self]
      exact (h b).trans hp
    · rw [Function.update_of_ne hb]
      exact h b
  cases l with
  | send ok now =>
    obtain ⟨-, -, rfl⟩ := step_send.1 hstep
    cases hq : s.sendQ.qFront with
    | none =>
      intro a
      rw [(sendHelper_idle cfg hq ok now).1]
      exact h a
    | some a =>
      obtain ⟨p, popped, hp, hproto, -⟩ := sendHelper_attempt cfg hq ok now
      exact hupdate a p (by have := hp.spec.2.2.1; omega) hproto
  | recv fam caddr data tv =>
    obtain ⟨-, -, rfl⟩ := step_recv.1 hstep
    obtain ⟨p, hproto, -, -, hp, -⟩ := recvPacket_cases cfg fam s caddr data tv
    exact hupdate caddr p hp hproto
  | recvNone fam =>
    obtain ⟨-, -, rfl⟩ := step_recvNone.1 hstep
    split
    · exact h
    · exact h
  | recvDone fam =>
    obtain ⟨-, -, rfl⟩ := step_recvDone.1 hstep
    exact h
  | alarm =>
    obtain ⟨-, rfl⟩ := step_alarm.1 hstep
    exact h

/-- The runs in which no packet is handled early are those of `step`. -/
theorem run_stepMem_eq (h : NsentNonneg s) {ls : List Label}
    (ht : StepsMeet (stepMem cfg) (Timely cfg) s ls) :
    run (stepMem cfg) s ls = run (step cfg) s ls ∧
      ∀ c, stepCount (stepMem cfg) c s ls = stepCount (step cfg) c s ls := by
  have hcongr := run_congr (c := Timely cfg) stepMem_eq
    (fun s l s' h _ hstep => nsentNonneg_step s l s' h hstep) h ht
  exact ⟨hcongr.1, hcongr.2.2⟩

/-! ## Runs -/

/-- The first request to 127.0.0.1 is answered, and the second send fails before the alarm.
Two sends are then counted, and one is left. -/
def lateFailure : List Label :=
  [.send true ⟨1, 0⟩, .recv .v4 loopback (loopbackPacket 0) ⟨2, 0⟩, .send false ⟨3, 0⟩, .alarm]

/-- A packet that is no reply comes from 127.0.0.1 before the first request. -/
def earlyPacket : List Label :=
  [.recv .v4 loopback (loopbackPacket 8) ⟨1, 0⟩, .alarm]

end NetProg.Rtt
