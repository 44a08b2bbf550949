import NetProg.Lib.Run
import NetProg.Prefork.Pool

/-!
# The prefork protocol

The master forks workers, and they talk over datagram sockets. A worker accepts a
connection, announces it with `GOT_REQUEST`, serves it, announces the end with
`COMPLETED_REQUEST` and waits for `READ_ALLOWED` before it accepts again. The master takes
one message at a time and answers with a fork, a kill or a `READ_ALLOWED`.

A step of the system is one system call of one process, with the local code up to the
next one. `startWorker` is the loop of a worker, `step` the whole system. The label says
which process moves and what the call returns : `worker k false` is a failed call of
worker `k`, `forkFail` a failed fork. Datagrams of one worker arrive in the order sent
(`Proc.out`), those of different workers in any order (`recv k`).

`Datagram.src` is a ghost : the master sees only the pid in the message. Processes are
numbered in the order of the forks, so that a pid used again is another process.
-/

namespace NetProg.Prefork

/-! ## Workers -/

/-- The system call at which a worker stands in `start_worker`. -/
inductive WorkerPc where
  | bind
  | recvAck
  | accept
  | sendGot
  | recvReq
  | sendRes
  | close
  | sendCompleted
deriving DecidableEq, Repr

inductive Status where
  | running
  | exited
  | killed
deriving DecidableEq, Repr

/-- A worker process. -/
structure Proc where
  pid : ℤ
  status : Status
  pc : WorkerPc
  /-- The local variable `reqs_handled`. -/
  reqsHandled : ℤ
  /-- Datagrams sent to the master and not yet received, oldest first. -/
  out : List ControlMsg
  /-- `READ_ALLOWED` datagrams at the worker's socket. -/
  acks : ℕ
deriving DecidableEq, Repr

/-- A child right after `fork`. -/
def Proc.fresh (pid : ℤ) : Proc :=
  ⟨pid, .running, .bind, 0, [], 0⟩

/-- The worker has a client connection in `csock`. -/
def Proc.holdsConnection (p : Proc) : Bool :=
  match p.pc with
  | .sendGot | .recvReq | .sendRes | .close => true
  | .bind | .recvAck | .accept | .sendCompleted => false

/-- The worker leaves `start_worker` with -1, and `create_new_worker` exits. -/
def Proc.exit (p : Proc) : Proc :=
  { p with status := .exited }

/-- One system call of `start_worker`, which succeeds if `ok`. -/
def startWorker (p : Proc) (ok : Bool) : Option Proc :=
  match p.pc, ok with
  -- `init` is 0 in the first turn, which does not wait for an ACK
  | .bind, true => some { p with pc := .accept }
  | .bind, false => some p.exit
  | .recvAck, true =>
    if p.acks = 0 then none else some { p with pc := .accept, acks := p.acks - 1 }
  | .recvAck, false => some p
  | .accept, true => some { p with pc := .sendGot }
  | .accept, false => some p.exit
  | .sendGot, true =>
    some { p with pc := .recvReq, out := p.out ++ [⟨gotRequest, p.pid, p.reqsHandled⟩] }
  | .sendGot, false => some p.exit
  | .recvReq, true => some { p with pc := .sendRes }
  | .recvReq, false => some p.exit
  | .sendRes, true => some { p with pc := .close }
  | .sendRes, false => some p.exit
  -- the result of `close` is not looked at
  | .close, _ => some { p with pc := .sendCompleted, reqsHandled := p.reqsHandled + 1 }
  | .sendCompleted, true =>
    some { p with pc := .recvAck, out := p.out ++ [⟨completedRequest, p.pid, p.reqsHandled⟩] }
  | .sendCompleted, false => some p.exit

/-! ## The system -/

/-- A message together with the process that sent it. -/
structure Datagram where
  msg : ControlMsg
  src : ℕ
deriving DecidableEq, Repr

/-- Where the master stands. -/
inductive MasterPc where
  /-- In the loop of `exponential_spawn(n)`, after `i` turns. -/
  | spawning (n i : ℤ)
  /-- In `recvfrom`. -/
  | recv
  /-- `recvfrom` returned, `handle_control_msg` is next. -/
  | handling (d : Datagram)
  /-- In `handle_control_msg`, at the system call of the branch taken. -/
  | act (a : Action)
  /-- The process ended. -/
  | dead
deriving DecidableEq, Repr

structure Sys where
  pool : Pool
  pc : MasterPc
  procs : List Proc

inductive Label where
  | worker (k : ℕ) (ok : Bool)
  | recv (k : ℕ)
  | handle
  | fork (pid : ℤ) (a : ℕ)
  | forkFail (a : ℕ)
  | spawnCheck
  | kill
  | ack
deriving DecidableEq, Repr

/-- Entering `exponential_spawn(n)`. -/
def exponentialSpawn (n : ℤ) : MasterPc :=
  .spawning (if n > 32 then 32 else n) 0

/-- After `fork` returned `pid` in `create_new_worker`. -/
def createNewWorker (s : Sys) (pid : ℤ) (a : ℕ) (pc : MasterPc) : Option Sys := do
  let pool ← s.pool.addWorker pid a
  return ⟨pool, pc, if pid = -1 then s.procs else s.procs ++ [Proc.fresh pid]⟩

/-- Where the master goes on after a fork. -/
def afterFork : MasterPc → Option MasterPc
  | .spawning n i => if i < n then some (.spawning n (i + 1)) else none
  | .act .create => some .recv
  | _ => none

/-- The process that the address made from `pid` leads to. -/
def findProc (procs : List Proc) (pid : ℤ) : Option ℕ :=
  procs.findIdx? fun p => p.pid == pid && p.status == .running

/-- Change process `k`. -/
def updateProc (procs : List Proc) (k : ℕ) (f : Proc → Proc) : List Proc :=
  match procs[k]? with
  | some p => procs.set k (f p)
  | none => procs

/-- `kill(pid, SIGKILL)` and `waitpid`. -/
def killProc (procs : List Proc) (pid : ℤ) : List Proc :=
  match findProc procs pid with
  | some k => updateProc procs k fun p => { p with status := .killed }
  | none => procs

/-- The master after the local code of `handle_control_msg`. -/
def Action.pc : Action → MasterPc
  | .done => .recv
  | a => .act a

/-- One step of the system. -/
def step (cfg : Config) (s : Sys) : Label → Option Sys
  | .worker k ok => do
    let p ← s.procs[k]?
    if p.status = .running then
      let p' ← startWorker p ok
      return { s with procs := s.procs.set k p' }
    else none
  | .recv k =>
    match s.pc, s.procs[k]? with
    | .recv, some p =>
      match p.out with
      | [] => none
      | m :: out => some { s with
          procs := s.procs.set k { p with out := out }
          pc := .handling ⟨m, k⟩ }
    | _, _ => none
  | .handle =>
    match s.pc with
    | .handling d =>
      match s.pool.handleControlMsg cfg d.msg with
      | some (pool, a) => some { s with pool := pool, pc := a.pc }
      | none => some { s with pc := .dead }
    | _ => none
  | .fork pid a => do
    let pc ← afterFork s.pc
    if 0 < pid ∧ s.pool.getWorkerById pid = some none then createNewWorker s pid a pc else none
  | .forkFail a => do
    let pc ← afterFork s.pc
    createNewWorker s (-1) a pc
  | .spawnCheck =>
    match s.pc with
    | .spawning n i =>
      if i < n then none
      else if s.pool.numIdleWorkers ≥ cfg.minSpareServers then some { s with pc := .recv }
      else some { s with pc := exponentialSpawn (n * 2) }
    | _ => none
  | .kill =>
    match s.pc with
    | .act (.remove wk thenCreate) =>
      let pc : MasterPc := if thenCreate then .act .create else .recv
      match s.pool.heap.load wk with
      | none => if wk = none then some { s with pc := pc } else some { s with pc := .dead }
      | some n =>
        let procs := killProc s.procs n.data.pid
        match s.pool.removeWorker wk with
        | some pool => some ⟨pool, pc, procs⟩
        | none => some { s with pc := .dead, procs := procs }
    | _ => none
  | .ack =>
    match s.pc with
    | .act (.ack wk) =>
      match s.pool.heap.load wk with
      | none => some { s with pc := .dead }
      | some n =>
        match findProc s.procs n.data.pid with
        | some k => some { s with
            pc := .recv
            procs := updateProc s.procs k fun p => { p with acks := p.acks + 1 } }
        -- `sendto` fails, and the master exits
        | none => some { s with pc := .dead }
    | _ => none

/-- The server at the call of `exponential_spawn(1)`. -/
def init : Sys :=
  ⟨Pool.empty, exponentialSpawn 1, []⟩

/-- No system call of a worker fails, and no fork. -/
def Label.succeeds : Label → Bool
  | .worker _ ok => ok
  | .forkFail _ => false
  | _ => true

/-- The server reaches `s` with no failed system call. -/
def Reachable (cfg : Config) (s : Sys) : Prop :=
  ∃ ls : List Label, (∀ l ∈ ls, l.succeeds = true) ∧ run (step cfg) init ls = some s

end NetProg.Prefork
