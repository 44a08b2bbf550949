import NetProg.Prefork.Spawn

/-!
# Harvesting

`remove_worker` writes `head->prev` after it moved `head`, so it needs a second entry.
With `minSpareServers ≥ 1` there is one : a worker is removed only when more than
`minSpareServers` are idle. With `minSpareServers ≤ 0` the pool starts with one worker, and a
client that comes when the last request is done keeps it alone. The first harvest then crashes the
master : it comes with the first `COMPLETED_REQUEST` if `maxSpareServers ≤ 0`, and otherwise when
`reqs_handled`, which is an `int` and wraps around, is `maxRequestsPerChild`. So `harvestSafe_iff`
asks for a worker to spare.
-/

namespace NetProg.Prefork

/-- No call of `remove_worker` follows a NULL or freed pointer. -/
def HarvestSafe (cfg : Config) : Prop :=
  ∀ s, Reachable cfg s → ∀ wk thenCreate, s.pc = .act (.remove wk thenCreate) →
    s.pool.removeWorker wk ≠ none

/-! ## A spare worker -/

/-- With `minSpareServers ≥ 1` a worker that is removed is not the only one. -/
theorem harvestSafe_of_spare {cfg : Config} (hmin : 1 ≤ cfg.minSpareServers) :
    HarvestSafe cfg := by
  intro s hs wk thenCreate hpc
  obtain ⟨l, hl⟩ := (reachable_inv hs).live (by simp [hpc])
  obtain ⟨a, w, l₁, l₂, k, p, rfl, rfl, -, -, -, -, -, -, hidle, -⟩ :=
    hl.target hpc (show Action.target (.remove wk thenCreate) = wk from rfl) (by simp)
  have hbound := hl.idle
  simp only [hpc, MasterPc.idleBound] at hbound
  refine Pool.removeWorker_isSome hl.rep hidle fun hnil => ?_
  have hlen := (hl.rep.counters_remove hidle).1
  have hle := hl.rep.idle_bounds.2
  rw [hnil] at hlen
  simp only [List.length_nil] at hlen
  omega

/-! ## The crash -/

/-- The master waits, and its only worker, which served `r` requests, may accept. -/
structure Serving (s : Sys) (a : ℕ) (pid r : ℤ) : Prop where
  pc : s.pc = .recv
  procs : s.procs = [⟨pid, .running, .accept, r, [], 0⟩]
  rep : s.pool.Rep [(a, ⟨pid, r, 1, 0⟩)]

/-- `remove_worker` is called on the only worker. -/
def Crash (s : Sys) : Prop :=
  ∃ a thenCreate, s.pc = .act (.remove (some a) thenCreate) ∧
    s.pool.removeWorker (some a) = none

/-- The system calls of the worker for one request. -/
def serveCalls : List Label :=
  List.replicate 6 (.worker 0 true)

/-- Both messages of a request are taken at once. -/
def serveRequest : List Label :=
  serveCalls ++ [.recv 0, .handle, .recv 0, .handle]

variable {cfg : Config} {s : Sys} {a : ℕ} {pid r : ℤ}

/-- The calls of the only worker change nothing but its process. -/
theorem run_calls {p p' : Proc} (n : ℕ) (hprocs : s.procs = [p]) (hst : p.status = .running)
    (hr : run startWorker p (List.replicate n true) = some p') :
    run (step cfg) s (List.replicate n (.worker 0 true)) = some { s with procs := [p'] } := by
  induction n generalizing s p with
  | zero =>
    obtain rfl := Option.some.inj hr
    rw [← hprocs]
    rfl
  | succ n ih =>
    obtain ⟨q, hw, hr⟩ := run_cons_eq_some.1 hr
    have hstep : step cfg s (.worker 0 true) = some { s with procs := [q] } := by
      simp [step, hprocs, hst, hw]
    have hq : q.status = .running := (startWorker_eq hw).2.trans hst
    exact run_cons_eq_some.2 ⟨_, hstep, ih (s := { s with procs := [q] }) rfl hq hr⟩

theorem run_serveCalls (h : s.procs = [⟨pid, .running, .accept, r, [], 0⟩]) :
    run (step cfg) s serveCalls = some { s with procs := [⟨pid, .running, .recvAck, r + 1,
      [⟨gotRequest, pid, r⟩, ⟨completedRequest, pid, r + 1⟩], 0⟩] } :=
  run_calls 6 h rfl rfl

/-- After one request the master harvests its only worker, or answers it. -/
theorem exists_serveRequest (hmin : cfg.minSpareServers ≤ 0) (h : Serving s a pid r) :
    ∃ s', run (step cfg) s serveRequest = some s' ∧
      s'.procs = [⟨pid, .running, .recvAck, r + 1, [], 0⟩] ∧
      s'.pool.Rep [(a, ⟨pid, r + 1, 1, 0⟩)] ∧
      s'.pc = .act (if 1 > cfg.maxSpareServers then .remove (some a) false
        else if r + 1 ≡ cfg.maxRequestsPerChild [ZMOD 2 ^ 32] then .remove (some a) true
        else .ack (some a)) := by
  have hrep : s.pool.Rep ([] ++ (a, ⟨pid, r, 1, 0⟩) :: []) := h.rep
  obtain ⟨p₁, hgot, hrep₁, -⟩ := Pool.handleControlMsg_got cfg hrep rfl r
  obtain ⟨p₂, hcompleted, hrep₂, -⟩ := Pool.handleControlMsg_completed cfg hrep₁ rfl (r + 1)
  have hidle₁ : p₁.numIdleWorkers = 0 := hrep₁.idle
  have hidle₂ : p₂.numIdleWorkers = 1 := hrep₂.idle
  rw [if_neg (by omega)] at hgot
  rw [hidle₂] at hcompleted
  refine ⟨⟨p₂, .act _, [⟨pid, .running, .recvAck, r + 1, [], 0⟩]⟩, ?_, rfl, hrep₂, rfl⟩
  rw [serveRequest, run_append, run_serveCalls h.procs]
  simp only [Option.bind_some, run_cons, step, h.pc, List.getElem?_cons_zero, List.set_cons_zero,
    hgot, Action.pc, hcompleted, run_nil]
  split_ifs <;> rfl

/-- The answer lets the worker accept again. -/
theorem run_answer (cfg : Config) (hpc : s.pc = .act (.ack (some a)))
    (hprocs : s.procs = [⟨pid, .running, .recvAck, r, [], 0⟩])
    (hrep : s.pool.Rep [(a, ⟨pid, r, 1, 0⟩)]) :
    ∃ s', run (step cfg) s [.ack, .worker 0 true] = some s' ∧ Serving s' a pid r := by
  have hcell : s.pool.heap.cells a = some ⟨⟨pid, r, 1, 0⟩, none, none⟩ := hrep.list.seg.1
  refine ⟨⟨s.pool, .recv, [⟨pid, .running, .accept, r, [], 0⟩]⟩, ?_, rfl, rfl, hrep⟩
  simp [run_cons, step, hpc, hprocs, hcell, findProc, updateProc, startWorker]

/-- One request ends in the crash, or below the quota with the worker back in `accept`. -/
theorem exists_crash_or_serving (hmin : cfg.minSpareServers ≤ 0) (h : Serving s a pid r) :
    ∃ ls s', (∀ lb ∈ ls, lb.succeeds = true) ∧ run (step cfg) s ls = some s' ∧
      (Crash s' ∨ Serving s' a pid (r + 1) ∧
        ¬r + 1 ≡ cfg.maxRequestsPerChild [ZMOD 2 ^ 32]) := by
  obtain ⟨s', hr, hprocs, hrep, hpc⟩ := exists_serveRequest hmin h
  by_cases hmax : 1 > cfg.maxSpareServers
  · rw [if_pos hmax] at hpc
    exact ⟨serveRequest, s', by decide, hr, .inl ⟨a, false, hpc, Pool.removeWorker_alone hrep⟩⟩
  by_cases hlast : r + 1 ≡ cfg.maxRequestsPerChild [ZMOD 2 ^ 32]
  · rw [if_neg hmax, if_pos hlast] at hpc
    exact ⟨serveRequest, s', by decide, hr, .inl ⟨a, true, hpc, Pool.removeWorker_alone hrep⟩⟩
  · rw [if_neg hmax, if_neg hlast] at hpc
    obtain ⟨t, hr', hserving⟩ := run_answer cfg hpc hprocs hrep
    refine ⟨serveRequest ++ [Label.ack, Label.worker 0 true], t, by decide, ?_,
      .inr ⟨hserving, hlast⟩⟩
    rw [run_append, hr, Option.bind_some, hr']

/-- The crash comes after `n` more requests, or earlier. -/
theorem exists_crash (hmin : cfg.minSpareServers ≤ 0) (n : ℕ) (h : Serving s a pid r)
    (hharvest : r + n + 1 ≡ cfg.maxRequestsPerChild [ZMOD 2 ^ 32]) :
    ∃ ls s', (∀ lb ∈ ls, lb.succeeds = true) ∧ run (step cfg) s ls = some s' ∧ Crash s' := by
  induction n generalizing s r with
  | zero =>
    obtain ⟨ls, s', hok, hr, hcrash | ⟨-, hlast⟩⟩ := exists_crash_or_serving hmin h
    · exact ⟨ls, s', hok, hr, hcrash⟩
    · exact absurd (by simpa using hharvest) hlast
  | succ n ih =>
    obtain ⟨ls, s', hok, hr, hcrash | ⟨hserving, -⟩⟩ := exists_crash_or_serving hmin h
    · exact ⟨ls, s', hok, hr, hcrash⟩
    · rw [Nat.cast_succ, ← add_assoc, add_right_comm r] at hharvest
      obtain ⟨ms, t, hok', hr', hcrash⟩ := ih hserving hharvest
      refine ⟨ls ++ ms, t, List.forall_mem_append.2 ⟨hok, hok'⟩, ?_, hcrash⟩
      rw [run_append, hr, Option.bind_some, hr']

/-- With `minSpareServers ≤ 0` the start-up makes one worker. -/
theorem exists_serving (hmin : cfg.minSpareServers ≤ 0) :
    ∃ s, Reachable cfg s ∧ Serving s 0 1 0 := by
  obtain ⟨pool, hadd, hrep⟩ : ∃ p, Pool.empty.addWorker 1 0 = some p ∧
      p.Rep [(0, Worker.fresh 1)] := Pool.addWorker_eq Pool.rep_empty rfl (by simp)
  have hnull : Pool.empty.getWorkerById 1 = some none :=
    (Pool.getWorkerById_eq_null Pool.rep_empty).2 (by simp)
  have hidle : pool.numIdleWorkers = 1 := hrep.idle
  have hcheck : pool.numIdleWorkers ≥ cfg.minSpareServers := by omega
  refine ⟨⟨pool, .recv, [⟨1, .running, .accept, 0, [], 0⟩]⟩,
    ⟨[.fork 1 0, .spawnCheck, .worker 0 true], by decide, ?_⟩, rfl, rfl, hrep⟩
  simp [run_cons, step, init, exponentialSpawn, afterFork, hnull, createNewWorker, hadd, hcheck,
    Proc.fresh, startWorker]

/-! ## Result -/

/-- Harvesting is safe if and only if a worker is kept to spare. -/
theorem harvestSafe_iff (cfg : Config) : HarvestSafe cfg ↔ 1 ≤ cfg.minSpareServers := by
  constructor
  · intro hsafe
    by_contra hmin
    obtain ⟨s, hreach, hserving⟩ := exists_serving (not_lt.1 hmin)
    have hharvest : 0 + (((cfg.maxRequestsPerChild - 1) % 2 ^ 32).toNat : ℤ) + 1 ≡
        cfg.maxRequestsPerChild [ZMOD 2 ^ 32] := by
      unfold Int.ModEq
      omega
    obtain ⟨ls, s', hok, hr, a, thenCreate, hpc, hnull⟩ :=
      exists_crash (not_lt.1 hmin) _ hserving hharvest
    exact hsafe s' (hreach.run hok hr) _ _ hpc hnull
  · exact harvestSafe_of_spare

/-- With no spare server asked for and a quota of one request, the first request served
ends in the crash. -/
theorem not_harvestSafe_single : ¬HarvestSafe ⟨0, 5, 1⟩ := by
  intro h
  obtain ⟨s, hs, hpc⟩ := Option.map_eq_some_iff.1 (show (run (step ⟨0, 5, 1⟩) init
    [.fork 100 0, .spawnCheck, .worker 0 true, .worker 0 true, .worker 0 true, .worker 0 true,
      .worker 0 true, .worker 0 true, .worker 0 true, .recv 0, .handle, .recv 0, .handle]).map
    (fun s => (s.pc, (s.pool.removeWorker (some 0)).isNone)) =
      some (.act (.remove (some 0) true), true) by decide)
  simp only [Prod.mk.injEq, Option.isNone_iff_eq_none] at hpc
  exact h s ⟨_, by decide, hs⟩ _ _ hpc.1 hpc.2

end NetProg.Prefork
