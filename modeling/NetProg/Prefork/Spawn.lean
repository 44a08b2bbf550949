import NetProg.Prefork.Moves
import NetProg.Prefork.Safety

/-!
# Start-up and the ceiling on spare servers

`exponential_spawn` doubles its batch up to 32 and looks at `num_idle_workers` after each
batch, so the master starts with one of 1, 3, 7, 15, 31, 63, 95, … idle workers :
`startUp m` is the first of them that reaches `m`. `handle_control_msg` compares with
`maxSpareServers` and never goes above it. `spareCeiling_iff` puts the two together : the
ceiling holds in every run if and only if one of these numbers lies between
`minSpareServers` and `maxSpareServers`.
-/

namespace NetProg.Prefork

/-! ## The batches -/

/-- The forks of call `j` of `exponential_spawn`, counted from 0. -/
def batch (j : ℕ) : ℤ :=
  min 32 (2 ^ j)

/-- The forks of the calls up to `j`. -/
def spawned : ℕ → ℤ
  | 0 => batch 0
  | j + 1 => spawned j + batch (j + 1)

theorem one_le_batch (j : ℕ) : 1 ≤ batch j := by
  have h : (1 : ℤ) ≤ 2 ^ j := one_le_pow₀ (by norm_num)
  exact le_min (by norm_num) h

theorem exponentialSpawn_batch (j : ℕ) :
    exponentialSpawn (batch j * 2) = .spawning (batch (j + 1)) 0 := by
  have hpow : (2 : ℤ) ^ (j + 1) = 2 ^ j * 2 := pow_succ 2 j
  have hone : (1 : ℤ) ≤ 2 ^ j := one_le_pow₀ (by norm_num)
  unfold exponentialSpawn batch
  rw [hpow]
  congr 1
  split <;> omega

theorem lt_spawned (j : ℕ) : (j : ℤ) < spawned j := by
  induction j with
  | zero => decide
  | succ j ih =>
    have := one_le_batch (j + 1)
    simp only [spawned]
    push_cast
    omega

theorem exists_le_spawned (m : ℤ) : ∃ j, m ≤ spawned j := by
  have h := lt_spawned m.toNat
  exact ⟨m.toNat, by omega⟩

/-- The last call of `exponential_spawn`. -/
def lastCall (m : ℤ) : ℕ :=
  Nat.find (exists_le_spawned m)

/-- The idle workers when the start-up is over. -/
def startUp (m : ℤ) : ℤ :=
  spawned (lastCall m)

theorem le_startUp (m : ℤ) : m ≤ startUp m :=
  Nat.find_spec (exists_le_spawned m)

theorem lastCall_le {m : ℤ} {j : ℕ} (h : m ≤ spawned j) : lastCall m ≤ j :=
  Nat.find_min' (exists_le_spawned m) h

theorem spawned_lt {m : ℤ} {j : ℕ} (h : j < lastCall m) : spawned j < m :=
  not_le.1 (Nat.find_min (exists_le_spawned m) h)

theorem spawned_mono : Monotone spawned := by
  refine monotone_nat_of_le_succ fun j => ?_
  have := one_le_batch (j + 1)
  simp only [spawned]
  omega

/-- The numbers of workers at which `exponential_spawn` looks at `num_idle_workers`. -/
def CheckedAt (t : ℤ) : Prop :=
  t = 1 ∨ t = 3 ∨ t = 7 ∨ t = 15 ∨ 31 ≤ t ∧ t % 32 = 31

theorem spawned_add_four (j : ℕ) : spawned (j + 4) = 31 + 32 * j := by
  induction j with
  | zero => decide
  | succ j ih =>
    have hpow : (32 : ℤ) ≤ 2 ^ (j + 5) := by
      rw [pow_add]
      have : (1 : ℤ) ≤ 2 ^ j := one_le_pow₀ (by norm_num)
      omega
    have hbatch : batch (j + 5) = 32 := min_eq_left hpow
    show spawned (j + 4) + batch (j + 5) = _
    rw [ih, hbatch]
    push_cast
    ring

theorem checkedAt_iff {t : ℤ} : CheckedAt t ↔ ∃ j, spawned j = t := by
  constructor
  · rintro (rfl | rfl | rfl | rfl | ⟨hle, hmod⟩)
    · exact ⟨0, by decide⟩
    · exact ⟨1, by decide⟩
    · exact ⟨2, by decide⟩
    · exact ⟨3, by decide⟩
    · refine ⟨((t - 31) / 32).toNat + 4, ?_⟩
      rw [spawned_add_four]
      omega
  · rintro ⟨j, rfl⟩
    rcases Nat.lt_or_ge j 4 with hj | hj
    · have hsmall : ∀ i < 4, CheckedAt (spawned i) := by
        unfold CheckedAt
        decide
      exact hsmall j hj
    · obtain ⟨k, rfl⟩ := Nat.exists_eq_add_of_le' hj
      rw [spawned_add_four]
      exact Or.inr (Or.inr (Or.inr (Or.inr (by omega))))

/-- The start-up keeps below `b` if a checked number lies between `m` and `b`. -/
theorem startUp_le_iff {m b : ℤ} : startUp m ≤ b ↔ ∃ t, CheckedAt t ∧ m ≤ t ∧ t ≤ b := by
  constructor
  · intro h
    exact ⟨startUp m, checkedAt_iff.2 ⟨_, rfl⟩, le_startUp m, h⟩
  · rintro ⟨t, ht, hm, hb⟩
    obtain ⟨j, rfl⟩ := checkedAt_iff.1 ht
    exact (spawned_mono (lastCall_le hm)).trans hb

/-! ## The start-up in every run -/

/-- In call `j`, the workers of the calls before and of the turns made are there. -/
def StartUp (cfg : Config) (s : Sys) : Prop :=
  ∀ n i, s.pc = .spawning n i → ∃ j ≤ lastCall cfg.minSpareServers,
    n = batch j ∧ i ≤ n ∧ s.pool.numIdleWorkers = spawned j - n + i

theorem startUp_init (cfg : Config) : StartUp cfg init := by
  intro n i h
  cases h
  exact ⟨0, Nat.zero_le _, by decide, by decide, by decide⟩

theorem afterSpawn_eq {cfg : Config} {j : ℕ} (hj : j ≤ lastCall cfg.minSpareServers) :
    spawned j = startUp cfg.minSpareServers ∧ afterSpawn cfg (spawned j) (batch j) = .recv ∨
      j + 1 ≤ lastCall cfg.minSpareServers ∧
        afterSpawn cfg (spawned j) (batch j) = .spawning (batch (j + 1)) 0 := by
  unfold afterSpawn
  by_cases hmin : cfg.minSpareServers ≤ spawned j
  · obtain rfl : j = lastCall cfg.minSpareServers := le_antisymm hj (lastCall_le hmin)
    exact Or.inl ⟨rfl, if_pos hmin⟩
  · have hne : j ≠ lastCall cfg.minSpareServers := by
      rintro rfl
      exact hmin (le_startUp _)
    exact Or.inr ⟨by omega, by rw [if_neg hmin, exponentialSpawn_batch]⟩

section Steps

variable {cfg : Config} {s s' : Sys} {lb : Label}

theorem StartUp.afterFork (h : StartUp cfg s) {pc : MasterPc} {pool : Pool} {procs : List Proc}
    {pid : ℤ} {a : ℕ} (hpc : afterFork s.pc = some pc) (hadd : s.pool.addWorker pid a = some pool) :
    StartUp cfg ⟨pool, pc, procs⟩ := by
  intro n i hs
  have hcount := (Pool.counters_addWorker hadd).2
  rcases afterFork_eq_some hpc with ⟨n', i', hspawn, hin, rfl⟩ | ⟨-, rfl⟩
  · cases hs
    obtain ⟨j, hj, hn, -, hidle⟩ := h _ _ hspawn
    exact ⟨j, hj, hn, by omega, by simp only; omega⟩
  · cases hs

theorem startUp_step (h : StartUp cfg s) (hs : step cfg s lb = some s') : StartUp cfg s' := by
  cases moves_of_step hs with
  | worker => exact h
  | handle =>
    intro n i hpc
    rename_i a _ _
    cases a <;> cases hpc
  | fork hpc hpid hfree hadd | forkFail hpc hadd => exact h.afterFork hpc hadd
  | spawnCheck hpc hin =>
    obtain ⟨j, hj, rfl, hi, hidle⟩ := h _ _ hpc
    have hdone : s.pool.numIdleWorkers = spawned j := by omega
    intro n i hs
    simp only [hdone] at hs ⊢
    rcases afterSpawn_eq hj with ⟨-, heq⟩ | ⟨hj', heq⟩
    · rw [heq] at hs
      cases hs
    · rw [heq] at hs
      cases hs
      exact ⟨j + 1, hj', rfl, by have := one_le_batch (j + 1); omega, by simp only [spawned]; omega⟩
  | killNull | kill =>
    intro n i hpc
    simp only [afterKill] at hpc
    split at hpc <;> cases hpc
  | recv | handleCrash | killCrash | ack | ackFail =>
    intro n i hpc
    cases hpc

/-- When the start-up ends, `startUp minSpareServers` workers are idle. -/
theorem StartUp.spawnCheck (h : StartUp cfg s) {n i : ℤ} (hpc : s.pc = .spawning n i) (hin : n ≤ i)
    (hrecv : afterSpawn cfg s.pool.numIdleWorkers n = .recv) :
    s.pool.numIdleWorkers = startUp cfg.minSpareServers := by
  obtain ⟨j, hj, rfl, hi, hidle⟩ := h _ _ hpc
  have hdone : s.pool.numIdleWorkers = spawned j := by omega
  rw [hdone] at hrecv ⊢
  rcases afterSpawn_eq hj with ⟨heq, -⟩ | ⟨-, heq⟩
  · exact heq
  · rw [heq] at hrecv
    cases hrecv

/-! ## The ceiling -/

/-- The upper bound on `num_idle_workers` where the master stands. -/
def MasterPc.ceiling (cfg : Config) (idle : ℤ) : MasterPc → Prop
  | .recv | .handling _ | .act (.ack _) => idle ≤ cfg.maxSpareServers
  | .act .create => idle + 1 ≤ cfg.maxSpareServers
  | .act (.remove wk thenCreate) =>
    wk ≠ none ∧ if thenCreate then idle ≤ cfg.maxSpareServers else idle - 1 ≤ cfg.maxSpareServers
  | .act .done => False
  | .spawning _ _ | .dead => True

/-- No branch of `handle_control_msg` goes above the ceiling. -/
theorem ceiling_step (hstart : startUp cfg.minSpareServers ≤ cfg.maxSpareServers)
    (hsp : StartUp cfg s) (h : s.pc.ceiling cfg s.pool.numIdleWorkers)
    (hs : step cfg s lb = some s') : s'.pc.ceiling cfg s'.pool.numIdleWorkers := by
  have hmove := moves_of_step hs
  cases hmove with
  | worker => exact h
  | recv hpc | ack hpc =>
    rw [hpc] at h
    exact h
  | handle hpc hm =>
    rw [hpc] at h
    simp only [MasterPc.ceiling] at h
    have hcount := (Pool.counters_handleControlMsg hm).2
    rcases hcount with ⟨-, hidle, rfl⟩ | ⟨a, -, hidle, rfl⟩ | ⟨-, -, hidle, rfl⟩
    · split <;> simp only [Action.pc, MasterPc.ceiling] <;> omega
    · split_ifs <;> simp only [Action.pc, MasterPc.ceiling] <;> simp <;> omega
    · simp only [Action.pc, MasterPc.ceiling]
      omega
  | fork hpc hpid hfree hadd | forkFail hpc hadd =>
    have hcount := (Pool.counters_addWorker hadd).2
    rcases afterFork_eq_some hpc with ⟨n, i, -, -, rfl⟩ | ⟨hcreate, rfl⟩
    · trivial
    · rw [hcreate] at h
      simp only [MasterPc.ceiling] at h ⊢
      omega
  | spawnCheck hpc hin =>
    have hdone := hsp.spawnCheck hpc hin
    unfold afterSpawn at hdone ⊢
    split
    · rename_i hmin
      rw [if_pos hmin] at hdone
      simp only [MasterPc.ceiling]
      exact (hdone rfl).trans_le hstart
    · trivial
  | killNull hpc =>
    rw [hpc] at h
    exact absurd rfl h.1
  | kill hpc hload hrem =>
    rename_i thenCreate _ _
    have hcount := (Pool.counters_removeWorker hrem).2
    rw [hpc] at h
    have hidle := h.2
    cases thenCreate with
    | true =>
      simp only [afterKill, if_true, MasterPc.ceiling] at hidle ⊢
      omega
    | false =>
      simp only [afterKill, Bool.false_eq_true, if_false, MasterPc.ceiling] at hidle ⊢
      omega
  | handleCrash | killCrash | ackFail => trivial

end Steps

/-! ## The start-up run -/

/-- Some pid is free. -/
theorem exists_pid (l : List (ℕ × Worker)) : ∃ pid : ℤ, 0 < pid ∧ ∀ x ∈ l, x.2.pid ≠ pid := by
  obtain ⟨m, hm⟩ := (l.map fun x => x.2.pid).toFinset.exists_le
  refine ⟨max m 0 + 1, by omega, fun x hx heq => ?_⟩
  have hle := hm x.2.pid (List.mem_toFinset.2 (List.mem_map_of_mem (f := fun x => x.2.pid) hx))
  omega

/-- A fork can succeed wherever the master makes one. -/
theorem exists_fork (cfg : Config) {s : Sys} {l : List (ℕ × Worker)} {pc : MasterPc}
    (hp : s.pool.Rep l) (hpc : afterFork s.pc = some pc) :
    ∃ pid a pool, step cfg s (.fork pid a) = some ⟨pool, pc, s.procs ++ [Proc.fresh pid]⟩ ∧
      pool.Rep ((a, Worker.fresh pid) :: l) := by
  obtain ⟨pid, hpos, hfree⟩ := exists_pid l
  obtain ⟨pool, hadd, hrep⟩ := Pool.addWorker_eq hp
    (s.pool.heap.cells_of_bound_le s.pool.heap.bound le_rfl) hfree
  refine ⟨pid, s.pool.heap.bound, pool, ?_, hrep⟩
  have hnull := (Pool.getWorkerById_eq_null hp).2 hfree
  have hne : pid ≠ -1 := by omega
  simp [step, hpc, hpos, hnull, createNewWorker, hadd, hne]

/-- The turns left in the loop of `exponential_spawn`. -/
theorem exists_batch (cfg : Config) (m : ℕ) {s : Sys} {l : List (ℕ × Worker)} {n i : ℤ}
    (hp : s.pool.Rep l) (hpc : s.pc = .spawning n i) (hm : n = i + m) :
    ∃ ls s' l', (∀ lb ∈ ls, lb.succeeds = true) ∧ run (step cfg) s ls = some s' ∧
      s'.pool.Rep l' ∧ s'.pc = .spawning n n ∧
      s'.pool.numIdleWorkers = s.pool.numIdleWorkers + m := by
  induction m generalizing s l i with
  | zero =>
    obtain rfl : n = i := by omega
    exact ⟨[], s, l, by simp, rfl, hp, hpc, by simp⟩
  | succ m ih =>
    have hfork : afterFork s.pc = some (.spawning n (i + 1)) := by
      rw [hpc]
      exact if_pos (by omega)
    obtain ⟨pid, a, pool, hs, hrep⟩ := exists_fork cfg hp hfork
    obtain ⟨ls, s', l', hok, hr, hrep', hpc', hidle⟩ :=
      ih (s := ⟨pool, .spawning n (i + 1), s.procs ++ [Proc.fresh pid]⟩) hrep rfl (by omega)
    refine ⟨.fork pid a :: ls, s', l', ?_, run_cons_eq_some.2 ⟨_, hs, hr⟩, hrep', hpc', ?_⟩
    · simpa [Label.succeeds] using hok
    · have hcount : pool.numIdleWorkers = s.pool.numIdleWorkers + 1 := by
        rw [hrep.idle, hp.idle]
        simp [Pool.idleCount_cons, Worker.fresh]
      simp only [hidle, hcount]
      push_cast
      ring

/-- The calls of `exponential_spawn` up to `j`. -/
theorem exists_calls (cfg : Config) {j : ℕ} (hj : j ≤ lastCall cfg.minSpareServers) :
    ∃ ls s l, (∀ lb ∈ ls, lb.succeeds = true) ∧ run (step cfg) init ls = some s ∧
      s.pool.Rep l ∧ s.pc = .spawning (batch j) (batch j) ∧
      s.pool.numIdleWorkers = spawned j := by
  induction j with
  | zero =>
    obtain ⟨ls, s, l, hok, hr, hrep, hpc, hidle⟩ := exists_batch cfg 1 (s := init) (n := batch 0)
      (i := 0) Pool.rep_empty (by decide) (by decide)
    exact ⟨ls, s, l, hok, hr, hrep, hpc, by rw [hidle]; decide⟩
  | succ j ih =>
    obtain ⟨ls, s, l, hok, hr, hrep, hpc, hidle⟩ := ih (by omega)
    have hmin : ¬cfg.minSpareServers ≤ spawned j := not_le.2 (spawned_lt (by omega))
    have hcheck : step cfg s .spawnCheck = some { s with pc := .spawning (batch (j + 1)) 0 } := by
      simp [step, hpc, hidle, hmin, exponentialSpawn_batch]
    have hbatch := one_le_batch (j + 1)
    obtain ⟨ls', s', l', hok', hr', hrep', hpc', hidle'⟩ := exists_batch cfg
      (batch (j + 1)).toNat (s := { s with pc := .spawning (batch (j + 1)) 0 }) hrep rfl (by omega)
    refine ⟨ls ++ .spawnCheck :: ls', s', l', ?_, ?_, hrep', hpc', ?_⟩
    · exact List.forall_mem_append.2 ⟨hok, List.forall_mem_cons.2 ⟨rfl, hok'⟩⟩
    · rw [run_append, hr]
      exact run_cons_eq_some.2 ⟨_, hcheck, hr'⟩
    · simp only [hidle', hidle, spawned]
      omega

/-- The start-up ends with the master waiting for its first message. -/
theorem exists_startUp (cfg : Config) : ∃ s l, Reachable cfg s ∧ s.pool.Rep l ∧ s.pc = .recv ∧
    s.pool.numIdleWorkers = startUp cfg.minSpareServers := by
  obtain ⟨ls, s, l, hok, hr, hrep, hpc, hidle⟩ := exists_calls cfg le_rfl
  have hmin : cfg.minSpareServers ≤ spawned (lastCall cfg.minSpareServers) := le_startUp _
  have hcheck : step cfg s .spawnCheck = some { s with pc := .recv } := by
    simp [step, hpc, hidle, hmin]
  have hreach : Reachable cfg s := ⟨ls, hok, hr⟩
  have hdone : Reachable cfg { s with pc := .recv } :=
    hreach.run (show ∀ lb ∈ [Label.spawnCheck], lb.succeeds = true by decide)
      (by rw [run_cons, hcheck]; rfl)
  exact ⟨_, l, hdone, hrep, rfl, hidle⟩

/-! ## Result -/

/-- Whenever the master waits, at most `maxSpareServers` workers are idle, whatever the
workers send and whatever fails. -/
def SpareCeiling (cfg : Config) : Prop :=
  ∀ ls s, run (step cfg) init ls = some s → s.pc = .recv →
    s.pool.numIdleWorkers ≤ cfg.maxSpareServers

/-- The ceiling holds if and only if the start-up looks at `num_idle_workers` somewhere
between `minSpareServers` and `maxSpareServers`. -/
theorem spareCeiling_iff (cfg : Config) : SpareCeiling cfg ↔
    ∃ t, CheckedAt t ∧ cfg.minSpareServers ≤ t ∧ t ≤ cfg.maxSpareServers := by
  rw [← startUp_le_iff]
  constructor
  · intro h
    obtain ⟨s, l, ⟨ls, -, hr⟩, -, hpc, hidle⟩ := exists_startUp cfg
    rw [← hidle]
    exact h ls s hr hpc
  · intro hstart ls s hr hpc
    have hinv : StartUp cfg s ∧ s.pc.ceiling cfg s.pool.numIdleWorkers :=
      run_invariant_of_step (I := fun s => StartUp cfg s ∧ s.pc.ceiling cfg s.pool.numIdleWorkers)
        (fun _ _ _ h hs => ⟨startUp_step h.1 hs, ceiling_step hstart h.1 h.2 hs⟩)
        ⟨startUp_init cfg, trivial⟩ hr
    have hidle := hinv.2
    rwa [hpc] at hidle

/-- With `minSpareServers = maxSpareServers = 2` the start-up makes three workers. -/
theorem not_spareCeiling_two : ¬SpareCeiling ⟨2, 2, 5⟩ := by
  intro h
  obtain ⟨s, hs, hpc⟩ := Option.map_eq_some_iff.1 (show (run (step ⟨2, 2, 5⟩) init
    [.fork 100 0, .spawnCheck, .fork 101 1, .fork 102 2, .spawnCheck]).map
    (fun s => (s.pc, s.pool.numIdleWorkers)) = some (.recv, 3) by decide)
  simp only [Prod.mk.injEq] at hpc
  have hle := h _ s hs hpc.1
  simp only [hpc.2] at hle
  omega

end NetProg.Prefork
