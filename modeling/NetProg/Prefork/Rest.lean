import NetProg.Lib.Potential
import NetProg.Prefork.Failures
import NetProg.Prefork.Harvest

/-!
# The server comes to rest

`Sys.work` counts the system calls that the server has still to make on account of what has
happened so far : a worker that has accepted goes on to `recvfrom`, each of its two messages
is received and handled, and the answer may be a fork. Every step lowers it, except for
`accept`, which adds 14 (`work_step`). So a connection costs at most 15 system calls, and the
start-up three for each worker and one more (`accepts_bound`).

When no client connects, the server comes to rest : all workers wait in `accept`, the master
in `recvfrom`, and the two counters are the number of workers (`rested_of_stuck`).
-/

namespace NetProg.Prefork

/-! ## Work -/

/-- The calls that a message leads to : it is received and handled, and then comes a fork and
the `bind` of the child, perhaps after a kill, or an answer that is received. -/
def ControlMsg.work (m : ControlMsg) : ℕ :=
  if m.type = gotRequest then 4 else 5

/-- The calls of a worker up to `accept` or to the wait for `READ_ALLOWED`, and what its
messages lead to. -/
def WorkerPc.work : WorkerPc → ℕ
  | .bind => 1
  | .recvAck | .accept => 0
  | .sendGot => 14
  | .recvReq => 9
  | .sendRes => 8
  | .close => 7
  | .sendCompleted => 6

def Proc.work (p : Proc) : ℕ :=
  (p.out.map ControlMsg.work).sum + if p.status = .running then p.pc.work + p.acks else 0

/-- The calls of the master before it waits, and of the children that it forks. -/
def MasterPc.work (cfg : Config) (idle : ℤ) : MasterPc → ℕ
  | .spawning n i => 3 * (startUp cfg.minSpareServers - idle).toNat + if n ≤ i then 2 else 1
  | .handling d => d.msg.work - 1
  | .act .create | .act (.ack _) => 2
  | .act (.remove _ thenCreate) => if thenCreate then 3 else 1
  | .recv | .act .done | .dead => 0

def Sys.work (cfg : Config) (s : Sys) : ℕ :=
  s.pc.work cfg s.pool.numIdleWorkers + (s.procs.map Proc.work).sum

/-- The step is an `accept`. -/
def accepts (s : Sys) : Label → Bool
  | .worker k _ => s.procs[k]?.any fun p => p.pc == .accept
  | _ => false

section Procs

variable {procs : List Proc} {k : ℕ} {p : Proc}

theorem sum_work_set_add (p' : Proc) (hp : procs[k]? = some p) :
    ((procs.set k p').map Proc.work).sum + p.work = (procs.map Proc.work).sum + p'.work := by
  induction procs generalizing k with
  | nil => cases hp
  | cons q procs ih =>
    cases k with
    | zero =>
      obtain rfl := Option.some.inj hp
      simp only [List.set_cons_zero, List.map_cons, List.sum_cons]
      omega
    | succ k =>
      have hrest := ih hp
      simp only [List.set_cons_succ, List.map_cons, List.sum_cons]
      omega

theorem work_killed_le (p : Proc) : ({ p with status := .killed } : Proc).work ≤ p.work := by
  simp [Proc.work]

theorem sum_work_killProc_le (procs : List Proc) (pid : ℤ) :
    ((killProc procs pid).map Proc.work).sum ≤ (procs.map Proc.work).sum := by
  unfold killProc
  cases findProc procs pid with
  | none => exact le_rfl
  | some k =>
    cases hp : procs[k]? with
    | none => simp [updateProc, hp]
    | some p =>
      have hsum := sum_work_set_add { p with status := .killed } hp
      have hle := work_killed_le p
      simp only [updateProc_eq_set hp]
      omega

theorem sum_work_ack_le (procs : List Proc) (k : ℕ) :
    ((updateProc procs k fun p => { p with acks := p.acks + 1 }).map Proc.work).sum ≤
      (procs.map Proc.work).sum + 1 := by
  cases hp : procs[k]? with
  | none => simp [updateProc, hp]
  | some p =>
    have hsum := sum_work_set_add { p with acks := p.acks + 1 } hp
    have hle : ({ p with acks := p.acks + 1 } : Proc).work ≤ p.work + 1 := by
      simp only [Proc.work]
      split_ifs <;> omega
    rw [updateProc_eq_set hp]
    omega

/-- A system call of a worker that succeeds. -/
theorem work_startWorker {p' : Proc} (hst : p.status = .running)
    (hw : startWorker p true = some p') :
    p'.work + 1 ≤ p.work + 15 * if p.pc == .accept then 1 else 0 := by
  cases workerMoves_of_startWorker hw with
  | recvAck hpc hacks =>
    simp only [Proc.work, hst, hpc, WorkerPc.work, if_true]
    omega
  | bind hpc | recvReq hpc | sendRes hpc | close hpc =>
    simp [Proc.work, hst, hpc, WorkerPc.work]
  | accept hpc =>
    simp [Proc.work, hst, hpc, WorkerPc.work]
    omega
  | sendGot hpc | sendCompleted hpc =>
    simp [Proc.work, hst, hpc, WorkerPc.work, ControlMsg.work, gotRequest, completedRequest]
    omega

end Procs

/-! ## Every step lowers the work -/

section Steps

variable {cfg : Config} {s s' : Sys} {lb : Label}

/-- What a message leads to is less after it is handled. -/
theorem work_handle {d : Datagram} {pool : Pool} {act : Action}
    (hm : s.pool.handleControlMsg cfg d.msg = some (pool, act)) (idle : ℤ) :
    act.pc.work cfg idle + 1 ≤ d.msg.work - 1 := by
  rcases (Pool.counters_handleControlMsg hm).2 with
    ⟨htype, -, rfl⟩ | ⟨a, htype, -, rfl⟩ | ⟨hgot, -, -, rfl⟩
  · simp only [ControlMsg.work, if_pos htype]
    split_ifs <;> simp [Action.pc, MasterPc.work]
  · have hgot : d.msg.type ≠ gotRequest := by
      rw [htype]
      decide
    simp only [ControlMsg.work, if_neg hgot]
    split_ifs <;> simp [Action.pc, MasterPc.work]
  · simp [ControlMsg.work, hgot, Action.pc, MasterPc.work]

/-- A fork of the start-up, or after a message. -/
theorem work_fork (h : StartUp cfg s) {pc : MasterPc} {pool : Pool} {pid : ℤ} {a : ℕ}
    (hpc : afterFork s.pc = some pc) (hadd : s.pool.addWorker pid a = some pool) :
    pc.work cfg pool.numIdleWorkers + 2 ≤ s.pc.work cfg s.pool.numIdleWorkers := by
  have hidle := (Pool.counters_addWorker hadd).2
  rcases afterFork_eq_some hpc with ⟨n, i, hspawn, hin, rfl⟩ | ⟨hcreate, rfl⟩
  · obtain ⟨j, hj, rfl, -, hnum⟩ := h n i hspawn
    have hle : spawned j ≤ startUp cfg.minSpareServers := spawned_mono hj
    simp only [hspawn, MasterPc.work, hidle]
    split_ifs <;> omega
  · rw [hcreate]
    exact le_rfl

theorem work_spawnCheck (h : StartUp cfg s) {n i : ℤ} (hpc : s.pc = .spawning n i) (hin : n ≤ i) :
    (afterSpawn cfg s.pool.numIdleWorkers n).work cfg s.pool.numIdleWorkers + 1 ≤
      s.pc.work cfg s.pool.numIdleWorkers := by
  obtain ⟨j, hj, rfl, -, hnum⟩ := h n i hpc
  have hone := one_le_batch j
  rw [hpc, afterSpawn]
  split
  · simp [MasterPc.work, hin]
  · simp only [exponentialSpawn, MasterPc.work, if_pos hin]
    split_ifs <;> omega

theorem work_fresh (pid : ℤ) : (Proc.fresh pid).work = 1 :=
  rfl

theorem work_kill (cfg : Config) (wk : Option ℕ) (thenCreate : Bool) (idle idle' : ℤ) :
    (afterKill thenCreate).work cfg idle + 1 ≤
      (MasterPc.act (.remove wk thenCreate)).work cfg idle' := by
  cases thenCreate <;> simp [afterKill, MasterPc.work]

/-- Every step does some of the work. `accept` brings new work. -/
theorem work_step (h : StartUp cfg s) (hok : lb.succeeds = true)
    (hs : step cfg s lb = some s') :
    s'.work cfg + 1 ≤ s.work cfg + 15 * if accepts s lb then 1 else 0 := by
  cases moves_of_step hs with
  | @worker k ok p p' hp hst hw =>
    obtain rfl : ok = true := hok
    have hsum := sum_work_set_add p' hp
    have hwork := work_startWorker hst hw
    have haccepts : accepts s (.worker k true) = (p.pc == .accept) := by
      simp [accepts, hp]
    rw [haccepts]
    simp only [Sys.work]
    omega
  | @recv k p m out hpc hp hout =>
    have hsum := sum_work_set_add { p with out := out } hp
    have hmsg : p.work = m.work + ({ p with out := out } : Proc).work := by
      simp only [Proc.work, hout, List.map_cons, List.sum_cons]
      omega
    have hpos : 1 ≤ m.work := by
      unfold ControlMsg.work
      split_ifs <;> decide
    simp only [Sys.work, hpc, MasterPc.work]
    omega
  | @handle d pool act hpc hm =>
    have hwork := work_handle hm pool.numIdleWorkers
    have hmsg : (MasterPc.handling d).work cfg s.pool.numIdleWorkers = d.msg.work - 1 := rfl
    simp only [Sys.work, hpc]
    omega
  | @handleCrash d hpc hm =>
    have hpos : 2 ≤ d.msg.work := by
      unfold ControlMsg.work
      split_ifs <;> decide
    simp only [Sys.work, hpc, MasterPc.work]
    omega
  | fork hpc hpid hfree hadd =>
    have hwork := work_fork h hpc hadd
    simp only [Sys.work, List.map_append, List.sum_append, List.map_singleton, List.sum_singleton,
      work_fresh]
    omega
  | forkFail => cases hok
  | spawnCheck hpc hin =>
    have hwork := work_spawnCheck h hpc hin
    simp only [Sys.work]
    omega
  | @killNull thenCreate hpc =>
    have hwork := work_kill cfg none thenCreate s.pool.numIdleWorkers s.pool.numIdleWorkers
    simp only [Sys.work, hpc]
    omega
  | @kill a thenCreate n pool hpc hload hrem =>
    have hwork := work_kill cfg (some a) thenCreate pool.numIdleWorkers s.pool.numIdleWorkers
    have hle := sum_work_killProc_le s.procs n.data.pid
    simp only [Sys.work, hpc]
    omega
  | @killCrash a thenCreate procs hpc hprocs hrem =>
    have hle : (procs.map Proc.work).sum ≤ (s.procs.map Proc.work).sum := by
      rcases hprocs with rfl | ⟨n, -, rfl⟩
      · exact le_rfl
      · exact sum_work_killProc_le s.procs n.data.pid
    simp only [Sys.work, hpc, MasterPc.work]
    split_ifs <;> omega
  | @ack wk n k hpc hload hfind =>
    have hle := sum_work_ack_le s.procs k
    simp only [Sys.work, hpc, MasterPc.work]
    omega
  | ackFail hpc =>
    simp only [Sys.work, hpc, MasterPc.work]
    omega

end Steps

/-! ## The cost of a connection -/

/-- In every run with no failed call, the number of steps is bounded by the connections that
were accepted. -/
theorem accepts_bound {cfg : Config} {ls : List Label} {s : Sys} (hok : ∀ l ∈ ls, l.succeeds = true)
    (hr : run (step cfg) init ls = some s) :
    ls.length + s.work cfg ≤ 3 * (startUp cfg.minSpareServers).toNat + 1 +
      15 * stepCount (step cfg) accepts init ls := by
  have hbound := Lib.length_add_le (m := Sys.work cfg) (c := fun _ l => l.succeeds = true)
    (fun _ _ _ h _ hs => startUp_step h hs) (fun _ _ _ h hok hs => work_step h hok hs)
    (startUp_init cfg) (stepsMeet_of_forall (fun l hl _ => hok l hl) init) hr
  have hinit : init.work cfg = 3 * (startUp cfg.minSpareServers).toNat + 1 := by
    simp [Sys.work, init, exponentialSpawn, MasterPc.work, Pool.empty]
  rwa [hinit] at hbound

/-- Two workers, one of which serves a request : 17 steps for two connections. -/
theorem accepts_bound_served : ∃ s, run (step ⟨1, 1, 5⟩) init
    [.fork 100 0, .spawnCheck, .worker 0 true, .worker 0 true, .worker 0 true, .recv 0, .handle,
      .fork 101 1, .worker 0 true, .worker 0 true, .worker 0 true, .worker 0 true, .recv 0,
      .handle, .kill, .worker 1 true, .worker 1 true] = some s ∧
    17 + s.work ⟨1, 1, 5⟩ ≤ 3 * (startUp 1).toNat + 1 + 15 * 2 := by
  obtain ⟨s, hs⟩ := Option.isSome_iff_exists.1 (show (run (step ⟨1, 1, 5⟩) init
    [.fork 100 0, .spawnCheck, .worker 0 true, .worker 0 true, .worker 0 true, .recv 0, .handle,
      .fork 101 1, .worker 0 true, .worker 0 true, .worker 0 true, .worker 0 true, .recv 0,
      .handle, .kill, .worker 1 true, .worker 1 true]).isSome by decide)
  have hcount : stepCount (step ⟨1, 1, 5⟩) accepts init
    [.fork 100 0, .spawnCheck, .worker 0 true, .worker 0 true, .worker 0 true, .recv 0, .handle,
      .fork 101 1, .worker 0 true, .worker 0 true, .worker 0 true, .worker 0 true, .recv 0,
      .handle, .kill, .worker 1 true, .worker 1 true] = 2 := by decide
  have hle := accepts_bound (by decide) hs
  rw [hcount] at hle
  exact ⟨s, hs, hle⟩

/-! ## At rest -/

/-- Nobody connects, and no call fails. -/
def Quiet (s : Sys) (lb : Label) : Prop :=
  lb.succeeds = true ∧ accepts s lb = false

/-- All processes wait, and the counters are right. -/
structure Rested (cfg : Config) (s : Sys) : Prop where
  recv : s.pc = .recv
  accept : ∀ k p, Running s.procs k p → p.pc = .accept ∧ p.acks = 0
  silent : ∀ p ∈ s.procs, p.out = []
  workers : s.pool.numWorkers = liveWorkers s.procs
  idle : s.pool.numIdleWorkers = s.pool.numWorkers
  spare : cfg.minSpareServers ≤ s.pool.numIdleWorkers

section Rest

variable {cfg : Config} {s : Sys} {l : List (ℕ × Worker)}

/-- The entries are the live workers. -/
theorem Live.liveWorkers_eq (h : Live cfg s l) : liveWorkers s.procs = l.length := by
  have hlive : ∀ {k : ℕ} {p : Proc}, s.procs[k]? = some p → p.live = true → Running s.procs k p :=
    fun hp hl => ⟨hp, by simpa [Proc.live] using hl⟩
  have hnodup : ((s.procs.filter Proc.live).map Proc.pid).Nodup := by
    rw [List.nodup_iff_pairwise_ne, List.pairwise_map, List.pairwise_filter,
      List.pairwise_iff_getElem]
    intro i j hi hj hij hli hlj heq
    exact hij.ne (h.unique i j _ _ (hlive (List.getElem?_eq_getElem hi) hli)
      (hlive (List.getElem?_eq_getElem hj) hlj) heq)
  have hmem : ∀ pid, pid ∈ (s.procs.filter Proc.live).map Proc.pid ↔
      pid ∈ l.map fun x => x.2.pid := by
    intro pid
    simp only [List.mem_map, List.mem_filter]
    constructor
    · rintro ⟨p, ⟨hp, hl⟩, rfl⟩
      obtain ⟨k, hk⟩ := List.mem_iff_getElem?.1 hp
      obtain ⟨x, hx, hpid, -⟩ := h.proc k p (hlive hk hl)
      exact ⟨x, hx, hpid⟩
    · rintro ⟨x, hx, rfl⟩
      obtain ⟨k, p, hk, hpid⟩ := h.entry x hx
      exact ⟨p, ⟨List.mem_of_getElem? hk.1, by simp [Proc.live, hk.2]⟩, hpid⟩
  have hperm := (List.perm_ext_iff_of_nodup hnodup h.rep.pids).2 hmem
  rw [liveWorkers, List.countP_eq_length_filter]
  simpa using hperm.length_eq

/-- The master finds the worker of the message it holds. -/
theorem Live.handleControlMsg_ne_none (h : Live cfg s l) {d : Datagram} (hpc : s.pc = .handling d) :
    s.pool.handleControlMsg cfg d.msg ≠ none := by
  obtain ⟨p, hk⟩ := h.held d hpc
  obtain ⟨⟨a, w⟩, hx, hxp, hxl⟩ := h.proc d.src p hk
  obtain ⟨l₁, l₂, rfl⟩ := List.append_of_mem hx
  have hmsg : Link (d.msg :: p.out) False w p := by
    simpa [hpc, MasterPc.held, MasterPc.owed] using hxl
  obtain ⟨hpid, ⟨htype, hidle, -⟩ | ⟨htype, hidle, -⟩⟩ := hmsg.handleMsg hxp
  · have hd : d.msg = ⟨gotRequest, w.pid, d.msg.reqsHandled⟩ := by rw [← htype, ← hpid]
    obtain ⟨pool, heq, -⟩ := Pool.handleControlMsg_got cfg h.rep hidle d.msg.reqsHandled
    rw [hd, heq]
    exact Option.some_ne_none _
  · have hd : d.msg = ⟨completedRequest, w.pid, d.msg.reqsHandled⟩ := by rw [← htype, ← hpid]
    obtain ⟨pool, heq, -⟩ := Pool.handleControlMsg_completed cfg h.rep hidle d.msg.reqsHandled
    rw [hd, heq]
    exact Option.some_ne_none _

/-- `READ_ALLOWED` has a receiver. -/
theorem Live.exists_ack (h : Live cfg s l) {wk : Option ℕ} (hpc : s.pc = .act (.ack wk)) :
    ∃ n k, s.pool.heap.load wk = some n ∧ findProc s.procs n.data.pid = some k := by
  obtain ⟨a, w, l₁, l₂, k, p, rfl, rfl, hk, hpid, hload, -⟩ :=
    h.target hpc (show Action.target (.ack wk) = wk from rfl) (by simp)
  refine ⟨_, k, hload, ?_⟩
  rw [← hpid]
  exact findProc_eq hk (h.only hk)

/-- The master can go on wherever it does not wait. -/
theorem exists_master_step (h : Live cfg s l) (hdead : s.pc ≠ .dead) (hrecv : s.pc ≠ .recv) :
    ∃ lb s', Quiet s lb ∧ step cfg s lb = some s' := by
  cases hpc : s.pc with
  | dead => exact absurd hpc hdead
  | recv => exact absurd hpc hrecv
  | spawning n i =>
    by_cases hin : i < n
    · have hfork : afterFork s.pc = some (.spawning n (i + 1)) := by
        rw [hpc]
        exact if_pos hin
      obtain ⟨pid, a, pool, hs, -⟩ := exists_fork cfg h.rep hfork
      exact ⟨_, _, ⟨rfl, rfl⟩, hs⟩
    · by_cases hmin : s.pool.numIdleWorkers ≥ cfg.minSpareServers
      · exact ⟨.spawnCheck, { s with pc := .recv }, ⟨rfl, rfl⟩, by simp [step, hpc, hin, hmin]⟩
      · exact ⟨.spawnCheck, { s with pc := exponentialSpawn (n * 2) }, ⟨rfl, rfl⟩,
          by simp [step, hpc, hin, hmin]⟩
  | handling d =>
    obtain ⟨⟨pool, act⟩, hm⟩ := Option.ne_none_iff_exists'.1 (h.handleControlMsg_ne_none hpc)
    exact ⟨.handle, _, ⟨rfl, rfl⟩, by simp only [step, hpc, hm]; rfl⟩
  | act a =>
    cases a with
    | done =>
      have hidle := h.idle
      rw [hpc] at hidle
      exact hidle.elim
    | create =>
      have hfork : afterFork s.pc = some .recv := by
        rw [hpc]
        rfl
      obtain ⟨pid, a, pool, hs, -⟩ := exists_fork cfg h.rep hfork
      exact ⟨_, _, ⟨rfl, rfl⟩, hs⟩
    | remove wk thenCreate =>
      obtain ⟨a, w, l₁, l₂, k, p, rfl, rfl, hk, hpid, hload, -⟩ :=
        h.target hpc (show Action.target (.remove wk thenCreate) = wk from rfl) (by simp)
      cases hrem : s.pool.removeWorker (some a) with
      | none => exact ⟨.kill, _, ⟨rfl, rfl⟩, by simp only [step, hpc, hload, hrem]; rfl⟩
      | some pool => exact ⟨.kill, _, ⟨rfl, rfl⟩, by simp only [step, hpc, hload, hrem]; rfl⟩
    | ack wk =>
      obtain ⟨n, k, hload, hfind⟩ := h.exists_ack hpc
      exact ⟨.ack, _, ⟨rfl, rfl⟩, by simp only [step, hpc, hload, hfind]; rfl⟩

/-- A worker that does not wait can go on. -/
theorem exists_worker_step {k : ℕ} {p : Proc} (hk : Running s.procs k p) (hpc : p.pc ≠ .accept)
    (hwait : p.pc = .recvAck → p.acks ≠ 0) : ∃ lb s', Quiet s lb ∧ step cfg s lb = some s' := by
  obtain ⟨p', hp'⟩ : ∃ p', startWorker p true = some p' := by
    unfold startWorker
    cases hp : p.pc with
    | recvAck => exact ⟨_, if_neg (hwait hp)⟩
    | bind | accept | sendGot | recvReq | sendRes | close | sendCompleted => exact ⟨_, rfl⟩
  refine ⟨.worker k true, { s with procs := s.procs.set k p' }, ⟨rfl, ?_⟩, ?_⟩
  · simp [accepts, hk.1, hpc]
  · simp [step, hk.1, hk.2, hp']

/-- Where the master waits, it can take any message that was sent. -/
theorem exists_recv_step {k : ℕ} {p : Proc} (hpc : s.pc = .recv) (hp : s.procs[k]? = some p)
    (hout : p.out ≠ []) : ∃ lb s', Quiet s lb ∧ step cfg s lb = some s' := by
  obtain ⟨m, out, hout⟩ := List.exists_cons_of_ne_nil hout
  exact ⟨.recv k, _, ⟨rfl, rfl⟩, by simp only [step, hpc, hp, hout]; rfl⟩

/-- A worker without a message on its way that waits for `READ_ALLOWED` has been answered. -/
theorem Link.acks_ne_zero {w : Worker} {p : Proc} (h : Link [] False w p)
    (hpc : p.pc = .recvAck) : p.acks ≠ 0 := by
  unfold Link at h
  simp only [hpc] at h
  rcases h with ⟨⟨hpend, -⟩ | ⟨hpend, -⟩, -⟩ | ⟨-, -, -, ⟨hno, -⟩ | ⟨-, hone⟩⟩
  · cases hpend
  · cases hpend
  · exact hno.elim
  · omega

/-- A worker in `accept` is idle for the master too. -/
theorem Link.of_accept {pend : List ControlMsg} {owed : Prop} {w : Worker} {p : Proc}
    (h : Link pend owed w p) (hpc : p.pc = .accept) : w.isIdle = 1 ∧ p.acks = 0 := by
  unfold Link at h
  simp only [hpc] at h
  exact ⟨h.2.1, h.2.2.2.1⟩

/-- The server can only stop at rest. -/
theorem rested_of_stuck (hi : Inv cfg s) (hdead : s.pc ≠ .dead)
    (hstuck : ∀ lb, Quiet s lb → step cfg s lb = none) : Rested cfg s := by
  obtain ⟨l, hl⟩ := hi.live hdead
  have hmoves : ¬∃ lb s', Quiet s lb ∧ step cfg s lb = some s' := by
    rintro ⟨lb, s', hq, hs⟩
    rw [hstuck lb hq] at hs
    cases hs
  have hpc : s.pc = .recv := by
    by_contra hrecv
    exact hmoves (exists_master_step hl hdead hrecv)
  have hsilent : ∀ p ∈ s.procs, p.out = [] := by
    intro p hp
    obtain ⟨k, hk⟩ := List.mem_iff_getElem?.1 hp
    by_contra hout
    exact hmoves (exists_recv_step hpc hk hout)
  -- nothing is pending, so the entry is linked to a worker that nobody owes an answer
  have hlink : ∀ k p, Running s.procs k p → ∀ x ∈ l, x.2.pid = p.pid → Link [] False x.2 p := by
    intro k p hk x hx hpid
    have h := hl.link hx hk hpid
    simpa [hpc, MasterPc.held, MasterPc.owed, hsilent p (List.mem_of_getElem? hk.1)] using h
  have haccept : ∀ k p, Running s.procs k p → p.pc = .accept := by
    intro k p hk
    obtain ⟨x, hx, hpid, -⟩ := hl.proc k p hk
    by_contra hne
    exact hmoves (exists_worker_step hk hne (hlink k p hk x hx hpid).acks_ne_zero)
  have hidle : Pool.idleCount l = l.length := by
    refine List.countP_eq_length.2 fun x hx => ?_
    obtain ⟨k, p, hk, hpid⟩ := hl.entry x hx
    simp [((hlink k p hk x hx hpid.symm).of_accept (haccept k p hk)).1]
  have hbound := hl.idle
  rw [hpc] at hbound
  exact {
    recv := hpc
    accept := fun k p hk => by
      obtain ⟨x, hx, hpid, -⟩ := hl.proc k p hk
      exact ⟨haccept k p hk, ((hlink k p hk x hx hpid).of_accept (haccept k p hk)).2⟩
    silent := hsilent
    workers := by rw [hl.rep.workers, hl.liveWorkers_eq]
    idle := by rw [hl.rep.idle, hl.rep.workers, hidle]
    spare := hbound }

end Rest

/-! ## The master lives -/

section Lives

variable {cfg : Config} {s s' : Sys} {lb : Label}

/-- Unless it removes the only worker, nothing ends the master. -/
theorem ne_dead_step (hsafe : HarvestSafe cfg) (h : Reachable cfg s) (hdead : s.pc ≠ .dead)
    (hok : lb.succeeds = true) (hs : step cfg s lb = some s') : s'.pc ≠ .dead := by
  obtain ⟨l, hl⟩ := (reachable_inv h).live hdead
  cases moves_of_step hs with
  | worker => exact hdead
  | recv => simp
  | @handle d pool act hpc hm => cases act <;> simp [Action.pc]
  | handleCrash hpc hm => exact absurd hm (hl.handleControlMsg_ne_none hpc)
  | fork hpc =>
    rcases afterFork_eq_some hpc with ⟨n, i, -, -, rfl⟩ | ⟨-, rfl⟩ <;> simp
  | forkFail => cases hok
  | spawnCheck =>
    unfold afterSpawn
    split <;> simp [exponentialSpawn]
  | @killNull thenCreate | @kill a thenCreate => cases thenCreate <;> simp [afterKill]
  | killCrash hpc hprocs hrem => exact absurd hrem (hsafe s h _ _ hpc)
  | ack => simp
  | ackFail hpc =>
    obtain ⟨n, k, hload, hfind⟩ := hl.exists_ack hpc
    simp only [step, hpc, hload, hfind] at hs
    cases hs

/-- What the runs without a connection keep. -/
structure Alive (cfg : Config) (s : Sys) : Prop where
  reachable : Reachable cfg s
  startUp : StartUp cfg s
  pc : s.pc ≠ .dead

theorem alive_step (hsafe : HarvestSafe cfg) (h : Alive cfg s) (hok : lb.succeeds = true)
    (hs : step cfg s lb = some s') : Alive cfg s' where
  reachable := by
    have hrun : run (step cfg) s [lb] = some s' := run_cons_eq_some.2 ⟨s', hs, rfl⟩
    exact h.reachable.run (by simpa using hok) hrun
  startUp := startUp_step h.startUp hs
  pc := ne_dead_step hsafe h.reachable h.pc hok hs

theorem Reachable.alive (hsafe : HarvestSafe cfg) (h : Reachable cfg s) : Alive cfg s := by
  obtain ⟨ls, hls, hr⟩ := h
  have hinit : Alive cfg init :=
    ⟨⟨[], by simp, rfl⟩, startUp_init cfg, by simp [init, exponentialSpawn]⟩
  exact run_invariant (c := fun _ lb => lb.succeeds = true) (fun _ _ _ => alive_step hsafe) hinit
    (stepsMeet_of_forall (fun lb hlb _ => hls lb hlb) init) hr

end Lives

/-! ## Coming to rest -/

end NetProg.Prefork
