import NetProg.Lib.Run
import NetProg.Rtt.Queue
import NetProg.Rtt.Proto

/-!
# The RTT scheduler

Three threads share the job queue and the protos. `sendHelper` takes the front of the
queue and sends it an echo request. `ip4RecvHelper` and `ip6RecvHelper` handle the packets
that arrive, and put the address back into the queue until three requests were sent.
`step` runs one iteration of one thread, which is atomic. Its label carries what the
environment does : the result of `sendto`, the packet, the time.

`nsent` counts the requests, gives the index into `rtt`, and says with the value 4 that
the address is done.
-/

namespace NetProg.Rtt

/-- An address of the input file. -/
inductive Addr where
  | v4 (addr : BitVec 32)
  | v6 (addr : BitVec 128)
deriving DecidableEq, Repr

def Addr.family : Addr → Family
  | .v4 _ => .v4
  | .v6 _ => .v6

/-- The process id, and the unique addresses, in the order of `sockets`. They are also the
keys of the hash map. -/
structure Config where
  pid : ℕ
  addrs : List Addr
  nodup : addrs.Nodup

/-- `unique_count`. -/
def Config.uniqueCount (cfg : Config) : ℤ :=
  cfg.addrs.length

/-! ## State and steps -/

/-- The variables the threads share. `count` and `fail` are `ipv4_count`, `ipv6_count`,
`ipv4_fail` and `ipv6_fail`. `sending` and `receiving` say which threads are still in
their loops, and `exited` that the process has ended through `cleanupAndExit`. -/
structure Sys where
  proto : Addr → Proto
  sendQ : Queue Addr
  totSendCnt : ℤ
  count : Family → ℤ
  fail : Family → ℤ
  stopThreads : Bool
  sending : Bool
  receiving : Family → Bool
  exited : Bool

/-- The state when `main` has started the threads. -/
def init (cfg : Config) : Sys where
  proto a := initIp a.family
  sendQ := cfg.addrs.foldl (fun q a => q.qPush a) Queue.initQueue
  totSendCnt := 0
  count fam := cfg.addrs.countP fun a => a.family = fam
  fail _ := 0
  stopThreads := false
  sending := true
  receiving _ := true
  exited := false

/-- Store the proto of an address. -/
def Sys.setProto (s : Sys) (a : Addr) (p : Proto) : Sys :=
  { s with proto := Function.update s.proto a p }

/-- The branch of `sendHelper` for a job `a`, when `fsend` returns 0 (`ok`) or -1. -/
def sendJob (cfg : Config) (s : Sys) (a : Addr) (ok : Bool) (now : Timeval) : Sys :=
  let p := (fsend (s.proto a).icmpproto cfg.pid now (s.proto a)).2
  let p := { p with tries := p.tries + 1 }
  let s := { s with totSendCnt := s.totSendCnt + 1 }
  if ok then { s.setProto a { p with sent := p.sent + 1 } with sendQ := s.sendQ.qPop }
  else if p.nsent = 3 then
    { s.setProto a { p with nsent := p.nsent + 1 } with
      sendQ := s.sendQ.qPop
      fail := Function.update s.fail p.icmpproto (s.fail p.icmpproto + 1) }
  else if p.nsent < 3 then
    s.setProto a { p.setRtt p.nsent (-1) with nsent := p.nsent + 1 }
  else s.setProto a p

/-- What `sendHelper` does under the mutex. -/
def sendLocked (cfg : Config) (s : Sys) (ok : Bool) (now : Timeval) : Sys :=
  match s.sendQ.qFront with
  | some a => sendJob cfg s a ok now
  | none => if s.stopThreads then { s with sending := false } else s

/-- One iteration of `sendHelper`. -/
def sendHelper (cfg : Config) (s : Sys) (ok : Bool) (now : Timeval) : Sys :=
  if (sendLocked cfg s ok now).totSendCnt = 3 * cfg.uniqueCount then
    { sendLocked cfg s ok now with sending := false }
  else sendLocked cfg s ok now

/-- `BUF_SIZE`. -/
def bufSize : ℕ :=
  1500

/-- The receive buffer, which is cleared before every `recvfrom`. -/
def buff (data : List UInt8) : Bytes :=
  fun i => data.getD i 0

/-- What a receiver does when `fproc` has left the proto of `caddr` as `p`. -/
def afterProc (fam : Family) (s : Sys) (caddr : Addr) (p : Proto) : Sys :=
  if p.nsent < 3 then { s.setProto caddr p with sendQ := s.sendQ.qPush caddr }
  else if p.nsent = 3 then
    { s.setProto caddr { p with nsent := p.nsent + 1 } with
      count := Function.update s.count fam (s.count fam - 1) }
  else s.setProto caddr p

section AfterProc

variable {fam : Family} {s : Sys} {caddr : Addr} {p : Proto}

theorem afterProc_of_lt (h : p.nsent < 3) :
    afterProc fam s caddr p = { s.setProto caddr p with sendQ := s.sendQ.qPush caddr } :=
  if_pos h

theorem afterProc_of_eq (h : p.nsent = 3) :
    afterProc fam s caddr p = { s.setProto caddr { p with nsent := p.nsent + 1 } with
      count := Function.update s.count fam (s.count fam - 1) } := by
  rw [afterProc, if_neg (by omega), if_pos h]

theorem afterProc_of_gt (h : 3 < p.nsent) : afterProc fam s caddr p = s.setProto caddr p := by
  rw [afterProc, if_neg (by omega), if_neg (by omega)]

end AfterProc

/-- What `ip4RecvHelper` and `ip6RecvHelper` do with a packet. -/
def recvPacket (cfg : Config) (fam : Family) (s : Sys) (caddr : Addr) (data : List UInt8)
    (tv : Timeval) : Sys :=
  if caddr ∈ cfg.addrs then
    let r := fproc (s.proto caddr).icmpproto cfg.pid (buff data) data.length (s.proto caddr) tv
    if r.1 = -1 then { s with exited := true } else afterProc fam s caddr r.2
  else s

/-- What happens next. -/
inductive Label where
  /-- An iteration of `sendHelper`. -/
  | send (ok : Bool) (now : Timeval)
  /-- A receiver gets a packet. -/
  | recv (fam : Family) (caddr : Addr) (data : List UInt8) (tv : Timeval)
  /-- A receiver gets nothing. -/
  | recvNone (fam : Family)
  /-- A receiver finds its guard false. -/
  | recvDone (fam : Family)
  /-- `sigAlrmHandler`. -/
  | alarm
deriving DecidableEq, Repr

/-- The guard of the loop of a receiver. -/
def Sys.Waiting (s : Sys) (fam : Family) : Prop :=
  s.count fam - s.fail fam > 0

instance (s : Sys) (fam : Family) : Decidable (s.Waiting fam) :=
  inferInstanceAs (Decidable (_ > _))

/-- One step of the program. -/
def step (cfg : Config) (s : Sys) (l : Label) : Option Sys :=
  if s.exited then none
  else
    match l with
    | .send ok now => if s.sending then some (sendHelper cfg s ok now) else none
    | .recv fam caddr data tv =>
      if s.receiving fam ∧ s.Waiting fam ∧ caddr.family = fam ∧ data ≠ [] ∧
          data.length ≤ bufSize then
        some (recvPacket cfg fam s caddr data tv)
      else none
    | .recvNone fam =>
      if s.receiving fam ∧ s.Waiting fam then
        some (if s.stopThreads then
          { s with receiving := Function.update s.receiving fam false } else s)
      else none
    | .recvDone fam =>
      if s.receiving fam ∧ ¬s.Waiting fam then
        some { s with receiving := Function.update s.receiving fam false }
      else none
    | .alarm => some { s with stopThreads := true }

theorem step_send {cfg : Config} {s s' : Sys} {ok : Bool} {now : Timeval} :
    step cfg s (.send ok now) = some s' ↔
      s.exited = false ∧ s.sending = true ∧ sendHelper cfg s ok now = s' := by
  simp [step]

theorem step_recv {cfg : Config} {s s' : Sys} {fam : Family} {caddr : Addr} {data : List UInt8}
    {tv : Timeval} : step cfg s (.recv fam caddr data tv) = some s' ↔
      s.exited = false ∧ (s.receiving fam = true ∧ s.Waiting fam ∧ caddr.family = fam ∧
        data ≠ [] ∧ data.length ≤ bufSize) ∧ recvPacket cfg fam s caddr data tv = s' := by
  simp [step]

theorem step_recvNone {cfg : Config} {s s' : Sys} {fam : Family} :
    step cfg s (.recvNone fam) = some s' ↔
      s.exited = false ∧ (s.receiving fam = true ∧ s.Waiting fam) ∧
        (if s.stopThreads then { s with receiving := Function.update s.receiving fam false }
          else s) = s' := by
  simp [step]

theorem step_recvDone {cfg : Config} {s s' : Sys} {fam : Family} :
    step cfg s (.recvDone fam) = some s' ↔
      s.exited = false ∧ (s.receiving fam = true ∧ ¬s.Waiting fam) ∧
        { s with receiving := Function.update s.receiving fam false } = s' := by
  simp [step]

theorem step_alarm {cfg : Config} {s s' : Sys} :
    step cfg s .alarm = some s' ↔ s.exited = false ∧ { s with stopThreads := true } = s' := by
  simp [step]

@[simp] theorem Sys.setProto_proto (s : Sys) (a : Addr) (p : Proto) :
    (s.setProto a p).proto = Function.update s.proto a p :=
  rfl

@[simp] theorem Sys.setProto_sendQ (s : Sys) (a : Addr) (p : Proto) :
    (s.setProto a p).sendQ = s.sendQ :=
  rfl

theorem init_sendQ (cfg : Config) : (init cfg).sendQ.elems = cfg.addrs.reverse := by
  have hpush : ∀ (l : List Addr) (q : Queue Addr),
      (l.foldl (fun q a => q.qPush a) q).elems = l.reverse ++ q.elems := by
    intro l
    induction l with
    | nil => exact fun q => rfl
    | cons a l ih => exact fun q => by simp [ih]
  exact (hpush cfg.addrs Queue.initQueue).trans (List.append_nil _)

end NetProg.Rtt
