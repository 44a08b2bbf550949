import NetProg.Prefork.Protocol

/-!
# What one step of the prefork server can do

`Moves cfg s lb s'` lists the outcomes of a step with everything it changes, one
constructor for each way through a system call. `moves_of_step` reads them off `step`, so
that an invariant is proved by cases on `Moves` and `step` is not unfolded again.
`WorkerMoves` does the same for the calls of one worker.
-/

namespace NetProg.Prefork

/-- The outcomes of a system call of a worker. -/
inductive WorkerMoves (p : Proc) : Bool → Proc → Prop where
  | bind (hpc : p.pc = .bind) : WorkerMoves p true { p with pc := .accept }
  | recvAck (hpc : p.pc = .recvAck) (hacks : p.acks ≠ 0) :
      WorkerMoves p true { p with pc := .accept, acks := p.acks - 1 }
  | recvAckFail (hpc : p.pc = .recvAck) : WorkerMoves p false p
  | accept (hpc : p.pc = .accept) : WorkerMoves p true { p with pc := .sendGot }
  | sendGot (hpc : p.pc = .sendGot) : WorkerMoves p true { p with
      pc := .recvReq
      out := p.out ++ [⟨gotRequest, p.pid, p.reqsHandled⟩] }
  | recvReq (hpc : p.pc = .recvReq) : WorkerMoves p true { p with pc := .sendRes }
  | sendRes (hpc : p.pc = .sendRes) : WorkerMoves p true { p with pc := .close }
  | close {ok : Bool} (hpc : p.pc = .close) : WorkerMoves p ok { p with
      pc := .sendCompleted
      reqsHandled := p.reqsHandled + 1 }
  | sendCompleted (hpc : p.pc = .sendCompleted) : WorkerMoves p true { p with
      pc := .recvAck
      out := p.out ++ [⟨completedRequest, p.pid, p.reqsHandled⟩] }
  | exit (hrecv : p.pc ≠ .recvAck) (hclose : p.pc ≠ .close) : WorkerMoves p false p.exit

theorem workerMoves_of_startWorker {p p' : Proc} {ok : Bool} (h : startWorker p ok = some p') :
    WorkerMoves p ok p' := by
  unfold startWorker at h
  cases ok with
  | true =>
    cases hpc : p.pc with
    | bind =>
      simp only [hpc] at h
      cases h
      exact .bind hpc
    | recvAck =>
      simp only [hpc] at h
      split_ifs at h with hacks
      cases h
      exact .recvAck hpc hacks
    | accept =>
      simp only [hpc] at h
      cases h
      exact .accept hpc
    | sendGot =>
      simp only [hpc] at h
      cases h
      exact .sendGot hpc
    | recvReq =>
      simp only [hpc] at h
      cases h
      exact .recvReq hpc
    | sendRes =>
      simp only [hpc] at h
      cases h
      exact .sendRes hpc
    | close =>
      simp only [hpc] at h
      cases h
      exact .close hpc
    | sendCompleted =>
      simp only [hpc] at h
      cases h
      exact .sendCompleted hpc
  | false =>
    cases hpc : p.pc with
    | recvAck =>
      simp only [hpc] at h
      cases h
      exact .recvAckFail hpc
    | close =>
      simp only [hpc] at h
      cases h
      exact .close hpc
    | bind | accept | sendGot | recvReq | sendRes | sendCompleted =>
      simp only [hpc] at h
      cases h
      exact .exit (by simp [hpc]) (by simp [hpc])

/-- Where the master goes on after `remove_worker`. -/
def afterKill (thenCreate : Bool) : MasterPc :=
  if thenCreate then .act .create else .recv

/-- Where the master goes on when the loop of `exponential_spawn(n)` is over. -/
def afterSpawn (cfg : Config) (idle n : ℤ) : MasterPc :=
  if idle ≥ cfg.minSpareServers then .recv else exponentialSpawn (n * 2)

/-- The outcomes of a step. -/
inductive Moves (cfg : Config) (s : Sys) : Label → Sys → Prop where
  | worker {k : ℕ} {ok : Bool} {p p' : Proc} (hp : s.procs[k]? = some p)
      (hst : p.status = .running) (hw : startWorker p ok = some p') :
      Moves cfg s (.worker k ok) { s with procs := s.procs.set k p' }
  | recv {k : ℕ} {p : Proc} {m : ControlMsg} {out : List ControlMsg} (hpc : s.pc = .recv)
      (hp : s.procs[k]? = some p) (hout : p.out = m :: out) :
      Moves cfg s (.recv k) { s with
        procs := s.procs.set k { p with out := out }
        pc := .handling ⟨m, k⟩ }
  | handle {d : Datagram} {pool : Pool} {a : Action} (hpc : s.pc = .handling d)
      (hm : s.pool.handleControlMsg cfg d.msg = some (pool, a)) :
      Moves cfg s .handle { s with pool := pool, pc := a.pc }
  | handleCrash {d : Datagram} (hpc : s.pc = .handling d)
      (hm : s.pool.handleControlMsg cfg d.msg = none) :
      Moves cfg s .handle { s with pc := .dead }
  | fork {pid : ℤ} {a : ℕ} {pc : MasterPc} {pool : Pool} (hpc : afterFork s.pc = some pc)
      (hpid : 0 < pid) (hfree : s.pool.getWorkerById pid = some none)
      (hadd : s.pool.addWorker pid a = some pool) :
      Moves cfg s (.fork pid a) ⟨pool, pc, s.procs ++ [Proc.fresh pid]⟩
  | forkFail {a : ℕ} {pc : MasterPc} {pool : Pool} (hpc : afterFork s.pc = some pc)
      (hadd : s.pool.addWorker (-1) a = some pool) :
      Moves cfg s (.forkFail a) ⟨pool, pc, s.procs⟩
  | spawnCheck {n i : ℤ} (hpc : s.pc = .spawning n i) (hin : n ≤ i) :
      Moves cfg s .spawnCheck { s with pc := afterSpawn cfg s.pool.numIdleWorkers n }
  | killNull {thenCreate : Bool} (hpc : s.pc = .act (.remove none thenCreate)) :
      Moves cfg s .kill { s with pc := afterKill thenCreate }
  | kill {a : ℕ} {thenCreate : Bool} {n : Node Worker} {pool : Pool}
      (hpc : s.pc = .act (.remove (some a) thenCreate)) (hload : s.pool.heap.cells a = some n)
      (hrem : s.pool.removeWorker (some a) = some pool) :
      Moves cfg s .kill ⟨pool, afterKill thenCreate, killProc s.procs n.data.pid⟩
  | killCrash {a : ℕ} {thenCreate : Bool} {procs : List Proc}
      (hpc : s.pc = .act (.remove (some a) thenCreate))
      (hprocs : procs = s.procs ∨
        ∃ n, s.pool.heap.cells a = some n ∧ procs = killProc s.procs n.data.pid)
      (hrem : s.pool.removeWorker (some a) = none) :
      Moves cfg s .kill { s with pc := .dead, procs := procs }
  | ack {wk : Option ℕ} {n : Node Worker} {k : ℕ} (hpc : s.pc = .act (.ack wk))
      (hload : s.pool.heap.load wk = some n) (hfind : findProc s.procs n.data.pid = some k) :
      Moves cfg s .ack { s with
        pc := .recv
        procs := updateProc s.procs k fun p => { p with acks := p.acks + 1 } }
  | ackFail {wk : Option ℕ} (hpc : s.pc = .act (.ack wk)) :
      Moves cfg s .ack { s with pc := .dead }

variable {cfg : Config} {s s' : Sys}

theorem moves_kill (h : step cfg s .kill = some s') : Moves cfg s .kill s' := by
  simp only [step] at h
  split at h
  · rename_i wk thenCreate hpc
    cases wk with
    | none =>
      simp only [Heap.load_none, if_true] at h
      cases h
      exact Moves.killNull hpc
    | some a =>
      simp only [Heap.load_some, reduceCtorEq, if_false] at h
      split at h
      · rename_i hload
        cases h
        have hrem : s.pool.removeWorker (some a) = none := by
          simp [Pool.removeWorker, hload]
        exact Moves.killCrash hpc (Or.inl rfl) hrem
      · rename_i n hload
        split at h
        · rename_i pool hrem
          cases h
          exact Moves.kill hpc hload hrem
        · rename_i hrem
          cases h
          exact Moves.killCrash hpc (Or.inr ⟨n, hload, rfl⟩) hrem
  · cases h

theorem moves_ack (h : step cfg s .ack = some s') : Moves cfg s .ack s' := by
  simp only [step] at h
  split at h
  · rename_i wk hpc
    split at h
    · cases h
      exact Moves.ackFail hpc
    · rename_i n hload
      split at h
      · rename_i k hfind
        cases h
        exact Moves.ack hpc hload hfind
      · cases h
        exact Moves.ackFail hpc
  · cases h

theorem moves_of_step {lb : Label} (h : step cfg s lb = some s') : Moves cfg s lb s' := by
  cases lb with
  | worker k ok =>
    simp only [step, Option.bind_eq_bind, Option.bind_eq_some_iff] at h
    obtain ⟨p, hp, h⟩ := h
    split at h
    · rename_i hst
      obtain ⟨p', hw, h⟩ := Option.bind_eq_some_iff.1 h
      cases h
      exact Moves.worker hp hst hw
    · cases h
  | recv k =>
    simp only [step] at h
    split at h
    · rename_i p hpc hp
      split at h
      · cases h
      · rename_i m out hout
        cases h
        exact Moves.recv hpc hp hout
    · cases h
  | handle =>
    simp only [step] at h
    split at h
    · rename_i d hpc
      split at h
      · rename_i pool a hm
        cases h
        exact Moves.handle hpc hm
      · rename_i hm
        cases h
        exact Moves.handleCrash hpc hm
    · cases h
  | fork pid a =>
    simp only [step, Option.bind_eq_bind, Option.bind_eq_some_iff] at h
    obtain ⟨pc, hpc, h⟩ := h
    split at h
    · rename_i hpid
      obtain ⟨pool, hadd, h⟩ := Option.bind_eq_some_iff.1 h
      rw [if_neg (by omega)] at h
      cases h
      exact Moves.fork hpc hpid.1 hpid.2 hadd
    · cases h
  | forkFail a =>
    simp only [step, Option.bind_eq_bind, Option.bind_eq_some_iff] at h
    obtain ⟨pc, hpc, h⟩ := h
    obtain ⟨pool, hadd, h⟩ := Option.bind_eq_some_iff.1 h
    rw [if_pos rfl] at h
    cases h
    exact Moves.forkFail hpc hadd
  | spawnCheck =>
    simp only [step] at h
    split at h
    · rename_i n i hpc
      split_ifs at h with hin hmin
      · cases h
        have hm : Moves cfg s _ _ := Moves.spawnCheck hpc (not_lt.1 hin)
        rwa [afterSpawn, if_pos hmin] at hm
      · cases h
        have hm : Moves cfg s _ _ := Moves.spawnCheck hpc (not_lt.1 hin)
        rwa [afterSpawn, if_neg hmin] at hm
    · cases h
  | kill => exact moves_kill h
  | ack => exact moves_ack h

/-- A run with no failed call goes on from a reachable state. -/
theorem Reachable.run {ls : List Label} (h : Reachable cfg s)
    (hls : ∀ l ∈ ls, l.succeeds = true) (hr : run (step cfg) s ls = some s') :
    Reachable cfg s' := by
  obtain ⟨ms, hms, hm⟩ := h
  refine ⟨ms ++ ls, List.forall_mem_append.2 ⟨hms, hls⟩, ?_⟩
  rw [run_append, hm, Option.bind_some, hr]

/-- The places of the master before and after a fork. -/
theorem afterFork_eq_some {pc pc' : MasterPc} (h : afterFork pc = some pc') :
    (∃ n i, pc = .spawning n i ∧ i < n ∧ pc' = .spawning n (i + 1)) ∨
      pc = .act .create ∧ pc' = .recv := by
  unfold afterFork at h
  split at h
  · rename_i n i
    split at h
    · rename_i hin
      cases h
      exact Or.inl ⟨n, i, rfl, hin, rfl⟩
    · cases h
  · cases h
    exact Or.inr ⟨rfl, rfl⟩
  · cases h

/-! ## What leads to a message and to an answer -/

theorem Action.pc_ne_handling (a : Action) (d : Datagram) : a.pc ≠ .handling d := by
  cases a <;> simp [Action.pc]

theorem afterFork_ne {pc pc' : MasterPc} (h : afterFork pc = some pc') :
    (∀ d, pc' ≠ .handling d) ∧ ∀ wk, pc' ≠ .act (.ack wk) := by
  rcases afterFork_eq_some h with ⟨n, i, -, -, rfl⟩ | ⟨-, rfl⟩ <;> simp

theorem afterSpawn_ne (idle n : ℤ) :
    (∀ d, afterSpawn cfg idle n ≠ .handling d) ∧
      ∀ wk, afterSpawn cfg idle n ≠ .act (.ack wk) := by
  unfold afterSpawn
  split <;> simp [exponentialSpawn]

theorem afterKill_ne (thenCreate : Bool) :
    (∀ d, afterKill thenCreate ≠ .handling d) ∧ ∀ wk, afterKill thenCreate ≠ .act (.ack wk) := by
  cases thenCreate <;> simp [afterKill]

/-- Only `recvfrom` gives the master a message, the oldest of its sender. -/
theorem handling_of_step {lb : Label} {d : Datagram} (hs : step cfg s lb = some s')
    (hd : s'.pc = .handling d) :
    s.pc = .handling d ∨ ∃ p out, s.procs[d.src]? = some p ∧ p.out = d.msg :: out := by
  cases moves_of_step hs with
  | worker => exact Or.inl hd
  | recv hpc hp hout =>
    cases hd
    exact Or.inr ⟨_, _, hp, hout⟩
  | handle hpc hm => exact absurd hd (Action.pc_ne_handling _ d)
  | fork hpc | forkFail hpc => exact absurd hd ((afterFork_ne hpc).1 d)
  | spawnCheck => exact absurd hd ((afterSpawn_ne _ _).1 d)
  | killNull | kill => exact absurd hd ((afterKill_ne _).1 d)
  | handleCrash | killCrash | ack | ackFail => cases hd

/-- Only `handle_control_msg` leads to an answer. -/
theorem ack_of_step {lb : Label} {wk : Option ℕ} (hs : step cfg s lb = some s')
    (hack : s'.pc = .act (.ack wk)) :
    s.pc = .act (.ack wk) ∧ s'.pool = s.pool ∨
      ∃ msg, s.pool.handleControlMsg cfg msg = some (s'.pool, .ack wk) := by
  cases moves_of_step hs with
  | worker => exact Or.inl ⟨hack, rfl⟩
  | handle hpc hm =>
    rename_i d pool act
    obtain rfl : act = .ack wk := by
      cases act <;> simp_all [Action.pc]
    exact Or.inr ⟨d.msg, hm⟩
  | fork hpc | forkFail hpc => exact absurd hack ((afterFork_ne hpc).2 wk)
  | spawnCheck => exact absurd hack ((afterSpawn_ne _ _).2 wk)
  | killNull | kill => exact absurd hack ((afterKill_ne _).2 wk)
  | recv | handleCrash | killCrash | ack | ackFail => cases hack

/-! ## What a step leaves of a process -/

theorem forall_mem_set {P : Proc → Prop} {procs : List Proc} {k : ℕ} {p' : Proc}
    (h : ∀ p ∈ procs, P p) (hp' : P p') : ∀ p ∈ procs.set k p', P p := by
  intro p hp
  rcases List.mem_or_eq_of_mem_set hp with hp | rfl
  · exact h p hp
  · exact hp'

theorem forall_mem_updateProc {P : Proc → Prop} {procs : List Proc} {k : ℕ} {f : Proc → Proc}
    (h : ∀ p ∈ procs, P p) (hf : ∀ p, procs[k]? = some p → P (f p)) :
    ∀ p ∈ updateProc procs k f, P p := by
  unfold updateProc
  split
  · rename_i p hp
    exact forall_mem_set h (hf p hp)
  · exact h

theorem forall_mem_killProc {P : Proc → Prop} {procs : List Proc} {pid : ℤ}
    (h : ∀ p ∈ procs, P p) (hf : ∀ p, P p → P { p with status := .killed }) :
    ∀ p ∈ killProc procs pid, P p := by
  unfold killProc
  split
  · exact forall_mem_updateProc h fun p hp => hf p (h p (List.mem_of_getElem? hp))
  · exact h

theorem forall_mem_append_fresh {P : Proc → Prop} {procs : List Proc} {pid : ℤ}
    (h : ∀ p ∈ procs, P p) (hf : P (Proc.fresh pid)) :
    ∀ p ∈ procs ++ [Proc.fresh pid], P p := by
  intro p hp
  rcases List.mem_append.1 hp with hp | hp
  · exact h p hp
  · rw [List.mem_singleton.1 hp]
    exact hf

/-- What holds of every process holds after a step if it is kept by each change of a process. -/
theorem forall_mem_of_step {P : Proc → Prop} {lb : Label} (h : ∀ p ∈ s.procs, P p)
    (hs : step cfg s lb = some s') (hcall : ∀ p p' ok, P p → startWorker p ok = some p' → P p')
    (hrecv : ∀ p m out, P p → p.out = m :: out → P { p with out := out })
    (hfresh : ∀ pid, P (Proc.fresh pid)) (hkill : ∀ p, P p → P { p with status := .killed })
    (hack : ∀ wk n k p, s.pc = .act (.ack wk) → s.pool.heap.load wk = some n →
      findProc s.procs n.data.pid = some k → s.procs[k]? = some p →
        P { p with acks := p.acks + 1 }) :
    ∀ p ∈ s'.procs, P p := by
  cases moves_of_step hs with
  | worker hp hst hw => exact forall_mem_set h (hcall _ _ _ (h _ (List.mem_of_getElem? hp)) hw)
  | recv hpc hp hout => exact forall_mem_set h (hrecv _ _ _ (h _ (List.mem_of_getElem? hp)) hout)
  | fork => exact forall_mem_append_fresh h (hfresh _)
  | kill => exact forall_mem_killProc h hkill
  | killCrash hpc hprocs =>
    rcases hprocs with rfl | ⟨n, -, rfl⟩
    · exact h
    · exact forall_mem_killProc h hkill
  | ack hpc hload hfind => exact forall_mem_updateProc h fun p hp => hack _ _ _ p hpc hload hfind hp
  | handle | handleCrash | forkFail | spawnCheck | killNull | ackFail => exact h

end NetProg.Prefork
