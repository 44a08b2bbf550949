import NetProg.Prefork.Spawn

/-!
# The rounds of the start-up

`Pool.exponentialSpawn` is the recursion of `exponential_spawn` as a function of the pool,
with the calls it makes as a log. `Forks` says what `fork` and `malloc` return when they
all succeed. The recursion has no bound of its own : it doubles `n`, caps it at 32 in the
callee and stops on `num_idle_workers`, which its loop changes. `exponentialSpawn_call`
goes down the calls with their number as the measure, and `exponentialSpawn_one` is the
start-up from the empty pool : it ends in call `lastCall minSpareServers`, and the last
batch bounds the overshoot (`startUp_le`). `run_exponentialSpawn` plays the same recursion as
steps of the server.
-/

namespace NetProg.Prefork

/-! ## The function -/

/-- What `fork` and `malloc` return to the calls of `create_new_worker`, in order. No child
is waited for during the start-up and no block is freed, so that none comes twice. -/
structure Forks where
  pid : ℕ → ℤ
  addr : ℕ → ℕ
  pid_pos : ∀ k, 0 < pid k
  pid_injective : Function.Injective pid
  addr_injective : Function.Injective addr

/-- Pids from 100 and blocks from 0, in order. -/
def Forks.counting : Forks where
  pid k := 100 + k
  addr k := k
  pid_pos k := by omega
  pid_injective i j h := by simpa using h
  addr_injective := Function.injective_id

/-- One call of `exponential_spawn`. -/
structure Call where
  /-- The argument. -/
  n : ℤ
  /-- The pool when the call is entered. -/
  entered : Pool
  /-- The pool behind the loop. -/
  looped : Pool

/-- The workers the call creates. -/
def Call.created (c : Call) : ℤ :=
  c.looped.numWorkers - c.entered.numWorkers

namespace Pool

/-- The loop of `exponential_spawn`, with the turns left and the number of forks made. -/
def createNewWorkers (forks : Forks) : ℕ → ℕ → Pool → Option Pool
  | 0, _, p => some p
  | turns + 1, k, p => do
    let p ← p.addWorker (forks.pid k) (forks.addr k)
    createNewWorkers forks turns (k + 1) p

/-- `exponential_spawn(n)` after `k` forks, with at most `fuel` calls. -/
def exponentialSpawn (minSpareServers : ℤ) (forks : Forks) :
    ℕ → ℤ → ℕ → Pool → Option (Pool × List Call)
  | 0, _, _, _ => none
  | fuel + 1, n, k, p => do
    let n' := if n > 32 then 32 else n
    let q ← createNewWorkers forks n'.toNat k p
    if q.numIdleWorkers ≥ minSpareServers then
      return (q, [⟨n, p, q⟩])
    else
      let (r, calls) ← exponentialSpawn minSpareServers forks fuel (n' * 2) (k + n'.toNat) q
      return (r, ⟨n, p, q⟩ :: calls)

end Pool

variable {forks : Forks} {m : ℤ}

/-- A result does not depend on the bound on the calls. -/
theorem exponentialSpawn_mono {fuel fuel' : ℕ} (hle : fuel ≤ fuel') {n : ℤ} {k : ℕ} {p : Pool}
    {r : Pool × List Call} (h : p.exponentialSpawn m forks fuel n k = some r) :
    p.exponentialSpawn m forks fuel' n k = some r := by
  induction fuel generalizing fuel' n k p r with
  | zero => cases h
  | succ fuel ih =>
    obtain ⟨fuel', rfl⟩ := Nat.exists_eq_add_of_le' (Nat.one_le_of_lt hle)
    simp only [Pool.exponentialSpawn, Option.bind_eq_bind, Option.bind_eq_some_iff] at h ⊢
    obtain ⟨q, hq, h⟩ := h
    refine ⟨q, hq, ?_⟩
    by_cases hmin : q.numIdleWorkers ≥ m
    · rwa [if_pos hmin] at h ⊢
    · rw [if_neg hmin] at h ⊢
      obtain ⟨⟨r', calls⟩, hr, h⟩ := Option.bind_eq_some_iff.1 h
      exact Option.bind_eq_some_iff.2 ⟨_, ih (by omega) hr, h⟩

/-! ## The loop -/

/-- The entries of the list after `k` forks. -/
def Forks.workers (forks : Forks) : ℕ → List (ℕ × Worker)
  | 0 => []
  | k + 1 => (forks.addr k, Worker.fresh (forks.pid k)) :: forks.workers k

@[simp] theorem Forks.length_workers (k : ℕ) : (forks.workers k).length = k := by
  induction k with
  | zero => rfl
  | succ k ih => simp [Forks.workers, ih]

@[simp] theorem Forks.idleCount_workers (k : ℕ) : Pool.idleCount (forks.workers k) = k := by
  induction k with
  | zero => rfl
  | succ k ih => simp [Forks.workers, Pool.idleCount_cons, ih, Worker.fresh]

theorem Forks.exists_of_mem_workers {k : ℕ} {x : ℕ × Worker} (hx : x ∈ forks.workers k) :
    ∃ j < k, x = (forks.addr j, Worker.fresh (forks.pid j)) := by
  induction k with
  | zero => cases hx
  | succ k ih =>
    rcases List.mem_cons.1 hx with rfl | hx
    · exact ⟨k, by omega, rfl⟩
    · obtain ⟨j, hj, heq⟩ := ih hx
      exact ⟨j, by omega, heq⟩

/-- The next child has a pid of its own. -/
theorem Forks.pid_ne (k : ℕ) : ∀ x ∈ forks.workers k, x.2.pid ≠ forks.pid k := by
  intro x hx heq
  obtain ⟨j, hj, rfl⟩ := Forks.exists_of_mem_workers hx
  have := forks.pid_injective heq
  omega

theorem Pool.cells_eq_none_of_addWorker {p p' : Pool} {pid : ℤ} {a b : ℕ} (hne : b ≠ a)
    (h : p.addWorker pid a = some p') (hb : p.heap.cells b = none) : p'.heap.cells b = none := by
  simp only [addWorker, Option.bind_eq_bind, Option.bind_eq_some_iff] at h
  obtain ⟨heap, halloc, h⟩ := h
  have hfree : heap.cells b = none := by
    unfold Heap.alloc at halloc
    split at halloc
    · cases halloc
      rwa [Heap.cells_write, Function.update_of_ne hne]
    · cases halloc
  split at h
  · cases h
    exact hfree
  · obtain ⟨heap₁, hm₁, heap₂, hm₂, h⟩ := by
      simpa only [Option.bind_eq_some_iff] using h
    cases h
    exact Heap.cells_eq_none_of_modify hm₂ (Heap.cells_eq_none_of_modify hm₁ hfree)

/-- The pool after `k` forks : the children so far, and the blocks to come are free. -/
structure Forked (forks : Forks) (k : ℕ) (p : Pool) : Prop where
  rep : p.Rep (forks.workers k)
  free : ∀ j, k ≤ j → p.heap.cells (forks.addr j) = none

theorem forked_empty (forks : Forks) : Forked forks 0 Pool.empty :=
  ⟨Pool.rep_empty, fun _ _ => rfl⟩

theorem Forked.numWorkers {k : ℕ} {p : Pool} (hp : Forked forks k p) : p.numWorkers = k := by
  rw [hp.rep.workers, Forks.length_workers]

theorem Forked.numIdleWorkers {k : ℕ} {p : Pool} (hp : Forked forks k p) :
    p.numIdleWorkers = k := by
  rw [hp.rep.idle, Forks.idleCount_workers]

/-- `create_new_worker` in the master. -/
theorem Forked.addWorker {k : ℕ} {p : Pool} (hp : Forked forks k p) :
    ∃ q, p.addWorker (forks.pid k) (forks.addr k) = some q ∧ Forked forks (k + 1) q := by
  obtain ⟨q, hq, hrep⟩ := Pool.addWorker_eq hp.rep (hp.free k le_rfl) (Forks.pid_ne k)
  refine ⟨q, hq, hrep, fun j hj => ?_⟩
  have hne : forks.addr j ≠ forks.addr k := fun heq => by
    have := forks.addr_injective heq
    omega
  exact Pool.cells_eq_none_of_addWorker hne hq (hp.free j (by omega))

/-- The loop makes its turns. -/
theorem Forked.createNewWorkers {k : ℕ} {p : Pool} (hp : Forked forks k p) (turns : ℕ) :
    ∃ q, Pool.createNewWorkers forks turns k p = some q ∧ Forked forks (k + turns) q := by
  induction turns generalizing k p with
  | zero => exact ⟨p, rfl, hp⟩
  | succ turns ih =>
    obtain ⟨q, hadd, hq⟩ := hp.addWorker
    obtain ⟨r, hr, hend⟩ := ih hq
    refine ⟨r, by rw [Pool.createNewWorkers, hadd]; exact hr, ?_⟩
    rwa [show k + (turns + 1) = k + 1 + turns by omega]

/-! ## The recursion -/

/-- The cap in call `j + 1`. -/
theorem batch_succ (j : ℕ) :
    (if batch j * 2 > 32 then 32 else batch j * 2) = batch (j + 1) :=
  (MasterPc.spawning.inj (exponentialSpawn_batch j)).1

theorem batch_le (j : ℕ) : batch j ≤ 32 :=
  min_le_left _ _

/-- A call keeps to the bounds on the argument and on the workers it creates. -/
def Call.Bounded (c : Call) : Prop :=
  c.n ≤ 64 ∧ 0 < c.created ∧ c.created ≤ 32

/-- The loop of call `j`. -/
theorem Forked.call {j : ℕ} {n : ℤ} (hle : n ≤ 64) {k : ℕ} {p : Pool}
    (hk : k + batch j = spawned j) (hp : Forked forks k p) :
    ∃ q, Pool.createNewWorkers forks (batch j).toNat k p = some q ∧
      Forked forks (k + (batch j).toNat) q ∧ q.numIdleWorkers = spawned j ∧
      (⟨n, p, q⟩ : Call).Bounded := by
  have hone := one_le_batch j
  have hcap := batch_le j
  obtain ⟨q, hloop, hq⟩ := hp.createNewWorkers (batch j).toNat
  refine ⟨q, hloop, hq, ?_, hle, ?_⟩
  · rw [hq.numIdleWorkers]
    omega
  · simp only [Call.created, hq.numWorkers, hp.numWorkers]
    omega

/-- Call `j` of the start-up, `d` calls before the last. -/
theorem exponentialSpawn_call {j d : ℕ} (hd : j + d = lastCall m) {n : ℤ}
    (hn : (if n > 32 then 32 else n) = batch j) (hle : n ≤ 64) {k : ℕ} {p : Pool}
    (hk : k + batch j = spawned j) (hp : Forked forks k p) :
    ∃ q calls, p.exponentialSpawn m forks (d + 1) n k = some (q, calls) ∧
      Forked forks (startUp m).toNat q ∧ ∀ c ∈ calls, c.Bounded := by
  induction d generalizing j n k p with
  | zero =>
    have hone := one_le_batch j
    obtain ⟨q, hloop, hq, hidle, hcall⟩ := hp.call hle hk
    obtain rfl : j = lastCall m := hd
    have hmin : q.numIdleWorkers ≥ m := hidle ▸ le_startUp m
    refine ⟨q, [⟨n, p, q⟩], ?_, ?_, List.forall_mem_singleton.2 hcall⟩
    · simp [Pool.exponentialSpawn, hn, hloop, hmin]
    · rwa [show (startUp m).toNat = k + (batch (lastCall m)).toNat by unfold startUp; omega]
  | succ d ih =>
    have hone := one_le_batch j
    obtain ⟨q, hloop, hq, hidle, hcall⟩ := hp.call hle hk
    have hmin : ¬q.numIdleWorkers ≥ m := by
      have := spawned_lt (m := m) (j := j) (by omega)
      omega
    -- the next call starts with the doubled batch
    have hcap := batch_le j
    have hle' : batch j * 2 ≤ 64 := by omega
    have hk' : ((k + (batch j).toNat : ℕ) : ℤ) + batch (j + 1) = spawned (j + 1) := by
      simp only [spawned]
      omega
    obtain ⟨r, calls, hr, hend, hcalls⟩ := ih (by omega) (batch_succ j) hle' hk' hq
    refine ⟨r, ⟨n, p, q⟩ :: calls, ?_, hend, List.forall_mem_cons.2 ⟨hcall, hcalls⟩⟩
    rw [Pool.exponentialSpawn]
    simp only [hn, hloop, hr, Option.bind_eq_bind, Option.bind_some, if_neg hmin]
    rfl

/-! ## The overshoot -/

/-- The last batch is at most 32, and at most one more than the workers there are. -/
theorem batch_succ_le (j : ℕ) : batch (j + 1) ≤ spawned j + 1 := by
  rcases Nat.lt_or_ge j 4 with hj | hj
  · have hsmall : ∀ i < 4, batch (i + 1) ≤ spawned i + 1 := by decide
    exact hsmall j hj
  · obtain ⟨i, rfl⟩ := Nat.exists_eq_add_of_le' hj
    have := batch_le (i + 4 + 1)
    rw [spawned_add_four]
    omega

theorem one_le_startUp (m : ℤ) : 1 ≤ startUp m := by
  have := lt_spawned (lastCall m)
  unfold startUp
  omega

/-- The start-up goes past `m` by less than its last batch. -/
theorem startUp_le (m : ℤ) : startUp m ≤ max 1 (min (2 * m - 1) (m + 31)) := by
  unfold startUp
  cases hlast : lastCall m with
  | zero => exact le_max_left _ _
  | succ j =>
    have hlt : spawned j < m := spawned_lt (by omega)
    have hcap := batch_le (j + 1)
    have hdouble := batch_succ_le j
    refine le_max_of_le_right (le_min ?_ ?_) <;> simp only [spawned] <;> omega

/-! ## The recursion in the server -/

/-- The forks of one call, as steps of the server. -/
theorem run_createNewWorkers (cfg : Config) {turns k : ℕ} {p q : Pool} (hp : Forked forks k p)
    (h : Pool.createNewWorkers forks turns k p = some q) {n i : ℤ} (hn : n = i + turns)
    (procs : List Proc) :
    ∃ ls procs', (∀ lb ∈ ls, lb.succeeds = true) ∧
      run (step cfg) ⟨p, .spawning n i, procs⟩ ls = some ⟨q, .spawning n n, procs'⟩ := by
  induction turns generalizing k p i procs with
  | zero =>
    cases h
    obtain rfl : n = i := by omega
    exact ⟨[], procs, by simp, rfl⟩
  | succ turns ih =>
    obtain ⟨p', hadd, hp'⟩ := hp.addWorker
    rw [Pool.createNewWorkers, hadd] at h
    obtain ⟨ls, procs', hok, hr⟩ :=
      ih hp' h (i := i + 1) (by omega) (procs ++ [Proc.fresh (forks.pid k)])
    have hfree := (Pool.getWorkerById_eq_null hp.rep).2 (Forks.pid_ne k)
    have hpos := forks.pid_pos k
    have hne : forks.pid k ≠ -1 := by omega
    have hs : step cfg ⟨p, .spawning n i, procs⟩ (.fork (forks.pid k) (forks.addr k)) =
        some ⟨p', .spawning n (i + 1), procs ++ [Proc.fresh (forks.pid k)]⟩ := by
      simp [step, afterFork, show i < n by omega, hpos, hfree, createNewWorker, hadd, hne]
    refine ⟨.fork (forks.pid k) (forks.addr k) :: ls, procs', ?_, run_cons_eq_some.2 ⟨_, hs, hr⟩⟩
    exact List.forall_mem_cons.2 ⟨rfl, hok⟩

/-- What the recursion returns, the server reaches. -/
theorem run_exponentialSpawn (cfg : Config) {fuel k : ℕ} {p q : Pool} {n : ℤ}
    {calls : List Call} (hp : Forked forks k p) (hn : 0 ≤ n)
    (h : p.exponentialSpawn cfg.minSpareServers forks fuel n k = some (q, calls))
    (procs : List Proc) :
    ∃ ls procs', (∀ lb ∈ ls, lb.succeeds = true) ∧
      run (step cfg) ⟨p, exponentialSpawn n, procs⟩ ls = some ⟨q, .recv, procs'⟩ := by
  induction fuel generalizing n k p calls procs with
  | zero => cases h
  | succ fuel ih =>
    simp only [Pool.exponentialSpawn, Option.bind_eq_bind, Option.bind_eq_some_iff] at h
    unfold exponentialSpawn
    have hcap : 0 ≤ if n > 32 then 32 else n := by split <;> omega
    generalize (if n > 32 then 32 else n : ℤ) = n' at h hcap ⊢
    obtain ⟨p', hloop, h⟩ := h
    have hp' := hp.createNewWorkers n'.toNat
    obtain ⟨ls, procs', hok, hr⟩ :=
      run_createNewWorkers cfg hp hloop (n := n') (i := 0) (by omega) procs
    by_cases hmin : p'.numIdleWorkers ≥ cfg.minSpareServers
    · rw [if_pos hmin] at h
      cases h
      have hcheck : step cfg ⟨q, .spawning n' n', procs'⟩ .spawnCheck =
          some ⟨q, .recv, procs'⟩ := by
        simp [step, hmin]
      refine ⟨ls ++ [.spawnCheck], procs', List.forall_mem_append.2 ⟨hok, by decide⟩, ?_⟩
      rw [run_append, hr]
      exact run_cons_eq_some.2 ⟨_, hcheck, rfl⟩
    · rw [if_neg hmin] at h
      obtain ⟨⟨r, calls'⟩, hrec, h⟩ := Option.bind_eq_some_iff.1 h
      cases h
      obtain ⟨p'', hloop', hp''⟩ := hp'
      obtain rfl : p' = p'' := Option.some.inj (hloop.symm.trans hloop')
      obtain ⟨ls', procs'', hok', hr'⟩ := ih hp'' (by omega) hrec procs'
      have hcheck : step cfg ⟨p', .spawning n' n', procs'⟩ .spawnCheck =
          some ⟨p', exponentialSpawn (n' * 2), procs'⟩ := by
        simp [step, hmin]
      refine ⟨ls ++ .spawnCheck :: ls', procs'', ?_, ?_⟩
      · exact List.forall_mem_append.2 ⟨hok, List.forall_mem_cons.2 ⟨rfl, hok'⟩⟩
      · rw [run_append, hr]
        exact run_cons_eq_some.2 ⟨_, hcheck, hr'⟩

/-! ## Result -/

/-- `exponential_spawn(1)` on the empty pool terminates. All its workers are idle, there are
at least `m` and fewer than one batch more, and the bounds of the calls hold. -/
theorem exponentialSpawn_one (forks : Forks) (m : ℤ) (hm : m < 2 ^ 31 - 64) :
    ∃ p calls, (∀ fuel, m.toNat < fuel →
        Pool.empty.exponentialSpawn m forks fuel 1 0 = some (p, calls)) ∧
      p.Rep (forks.workers p.numWorkers.toNat) ∧ p.numWorkers = p.numIdleWorkers ∧
      m ≤ p.numWorkers ∧ 1 ≤ p.numWorkers ∧
      p.numWorkers ≤ max 1 (min (2 * m - 1) (m + 31)) ∧ p.numWorkers < 2 ^ 31 ∧
      ∀ c ∈ calls, c.n ≤ 64 ∧ 0 < c.created ∧ c.created ≤ 32 := by
  obtain ⟨p, calls, hr, hp, hcalls⟩ := exponentialSpawn_call (m := m) (j := 0) (zero_add _)
    (n := 1) (by decide) (by decide) (by decide) (forked_empty forks)
  have hone := one_le_startUp m
  have hle := startUp_le m
  have hnum : p.numWorkers = startUp m := by
    rw [hp.numWorkers]
    omega
  have hidle : p.numIdleWorkers = startUp m := by
    rw [hp.numIdleWorkers]
    omega
  refine ⟨p, calls, fun fuel hfuel => exponentialSpawn_mono ?_ hr, ?_, by rw [hnum, hidle], ?_⟩
  · have hlast : lastCall m ≤ m.toNat := lastCall_le (by have := lt_spawned m.toNat; omega)
    omega
  · rw [hnum]
    exact hp.rep
  · rw [hnum]
    exact ⟨le_startUp m, hone, hle, by omega, hcalls⟩

/-- With 100 spare servers, pids from 100 and blocks from 0. -/
theorem exponentialSpawn_one_hundred : ∃ p calls, (∀ fuel, 100 < fuel →
    Pool.empty.exponentialSpawn 100 Forks.counting fuel 1 0 = some (p, calls)) ∧
      100 ≤ p.numWorkers ∧ p.numWorkers ≤ 131 := by
  obtain ⟨p, calls, hr, -, -, hle, -, hbound, -⟩ :=
    exponentialSpawn_one Forks.counting 100 (by decide)
  exact ⟨p, calls, hr, hle, by omega⟩

end NetProg.Prefork
