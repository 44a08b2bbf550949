import NetProg.Prefork.Spawn

/-!
# Workers that fail

A worker that leaves `start_worker` and a fork that fails are not noticed by the master :
the entry stays in the list and is counted for ever. `PoolTracks` says what the counters
are for : while the master waits, `num_workers` is the number of live workers, and
`minSpareServers` of them are ready for a connection.

A step is `Steady` if no worker leaves, no fork fails, and a worker accepts only while more
than `minSpareServers` workers are ready, those included that the master is about to add
before it waits again (`MasterPc.coming`). `pool_tracks` proves `PoolTracks` along every
run of such steps. `not_poolTracks_of_not_steady` is the other side : while the master
waits, any other step ends outside `PoolTracks`.
-/

namespace NetProg.Prefork

/-! ## Live and ready workers -/

/-- The worker waits for a connection, or does so without another message. -/
def Proc.ready (p : Proc) : Bool :=
  p.status == .running && (p.pc == .bind || p.pc == .accept || p.pc == .recvAck && p.acks != 0)

def Proc.live (p : Proc) : Bool :=
  p.status == .running

def liveWorkers (procs : List Proc) : ℕ :=
  procs.countP Proc.live

def readyWorkers (procs : List Proc) : ℕ :=
  procs.countP Proc.ready

/-- Whenever the master waits, its count of workers is right, and enough are ready. -/
def PoolTracks (cfg : Config) (s : Sys) : Prop :=
  s.pc = .recv → s.pool.numWorkers = liveWorkers s.procs ∧
    cfg.minSpareServers ≤ readyWorkers s.procs

/-- The workers that the master makes ready before it waits again. -/
def MasterPc.coming (cfg : Config) (idle : ℤ) : MasterPc → ℤ
  | .spawning _ _ => startUp cfg.minSpareServers - idle
  | .handling d =>
    if d.msg.type = gotRequest then if idle - 1 < cfg.minSpareServers then 1 else 0
    else if d.msg.type = completedRequest then if idle + 1 > cfg.maxSpareServers then 0 else 1
    else 0
  | .act .create | .act (.remove _ true) | .act (.ack _) => 1
  | .recv | .act .done | .act (.remove _ false) | .dead => 0

/-- Ready workers, those included that are coming. -/
def Sys.spare (cfg : Config) (s : Sys) : ℤ :=
  readyWorkers s.procs + s.pc.coming cfg s.pool.numIdleWorkers

/-- No worker leaves, no fork fails, and a worker accepts only if enough others are ready. -/
def Steady (cfg : Config) (s : Sys) : Label → Prop
  | .worker k ok => ∀ p, s.procs[k]? = some p →
    (ok = false → p.pc = .recvAck ∨ p.pc = .close) ∧
      (p.pc = .accept → cfg.minSpareServers < s.spare cfg)
  | .forkFail _ => False
  | _ => True

/-- `Steady` is checked on the process that moves. -/
instance decidableSteady (cfg : Config) (s : Sys) : ∀ lb, Decidable (Steady cfg s lb)
  | .worker k ok =>
    match h : s.procs[k]? with
    | none => .isTrue (by simp [Steady, h])
    | some p => decidable_of_iff ((ok = false → p.pc = .recvAck ∨ p.pc = .close) ∧
        (p.pc = .accept → cfg.minSpareServers < s.spare cfg)) (by simp [Steady, h])
  | .forkFail _ => .isFalse id
  | .recv _ | .handle | .fork _ _ | .spawnCheck | .kill | .ack => .isTrue trivial

section Count

variable {procs : List Proc} {k : ℕ} {p : Proc}

theorem countP_set_add (q : Proc → Bool) (p' : Proc) (hp : procs[k]? = some p) :
    (procs.set k p').countP q + (if q p then 1 else 0) =
      procs.countP q + if q p' then 1 else 0 := by
  obtain ⟨hlt, hget⟩ := List.getElem?_eq_some_iff.1 hp
  rw [List.countP_set hlt, hget]
  by_cases hq : q p
  · have hpos : 0 < procs.countP q := List.countP_pos_iff.2 ⟨p, List.mem_of_getElem? hp, hq⟩
    simp only [hq, if_true]
    omega
  · simp [hq]

end Count

/-! ## The invariant -/

/-- What holds in a run of steady steps. -/
structure Tracked (cfg : Config) (s : Sys) : Prop where
  inv : Inv cfg s
  startUp : StartUp cfg s
  live : s.pc ≠ .dead → s.pool.numWorkers = liveWorkers s.procs
  spare : s.pc ≠ .dead → cfg.minSpareServers ≤ s.spare cfg

theorem tracked_init (cfg : Config) : Tracked cfg init where
  inv := inv_init cfg
  startUp := startUp_init cfg
  live _ := rfl
  spare _ := by
    have hle := le_startUp cfg.minSpareServers
    simpa [Sys.spare, init, exponentialSpawn, MasterPc.coming, readyWorkers, Pool.empty] using hle

section Steps

variable {cfg : Config} {s s' : Sys} {lb : Label}

/-- A steady step of a worker is one that succeeds, up to the calls whose result the worker
does not need. -/
theorem inv_of_steady (hi : Inv cfg s) (hc : Steady cfg s lb) (hs : step cfg s lb = some s') :
    Inv cfg s' := by
  cases lb with
  | worker k ok =>
    cases ok with
    | true => exact inv_step hi rfl hs
    | false =>
      cases moves_of_step hs with
      | worker hp hst hw =>
        rename_i p p'
        cases workerMoves_of_startWorker hw with
        | recvAckFail =>
          obtain ⟨hlt, hget⟩ := List.getElem?_eq_some_iff.1 hp
          rw [← hget, List.set_getElem_self]
          exact hi
        | close hpc =>
          have hstep : step cfg s (.worker k true) = some { s with procs := s.procs.set k { p with
              pc := .sendCompleted
              reqsHandled := p.reqsHandled + 1 } } := by
            simp [step, hp, hst, startWorker, hpc]
          exact inv_step hi rfl hstep
        | exit hrecv hclose => exact absurd ((hc p hp).1 rfl) (not_or.2 ⟨hrecv, hclose⟩)
  | forkFail a => exact hc.elim
  | recv | handle | fork | spawnCheck | kill | ack => exact inv_step hi rfl hs

/-- A worker that does not accept stays ready, and one that does not leave stays live. -/
theorem startWorker_steady {p p' : Proc} {ok : Bool} (hst : p.status = .running)
    (hok : ok = false → p.pc = .recvAck ∨ p.pc = .close) (hw : startWorker p ok = some p') :
    p'.live = p.live ∧ (p.pc ≠ .accept → p.ready = true → p'.ready = true) := by
  cases workerMoves_of_startWorker hw with
  | bind | recvAck => exact ⟨rfl, fun _ _ => by simp [Proc.ready, hst]⟩
  | recvAckFail => exact ⟨rfl, fun _ h => h⟩
  | accept hpc => exact ⟨rfl, fun hne => absurd hpc hne⟩
  | sendGot hpc | recvReq hpc | sendRes hpc | close hpc | sendCompleted hpc =>
    exact ⟨rfl, fun _ h => by simp [Proc.ready, hpc] at h⟩
  | exit hrecv hclose => exact absurd (hok rfl) (not_or.2 ⟨hrecv, hclose⟩)

/-- The counts after the worker of an entry is killed. It waited for `READ_ALLOWED`. -/
theorem Tracked.kill (h : Tracked cfg s) {a : ℕ} {thenCreate : Bool} {n : Node Worker}
    (hpc : s.pc = .act (.remove (some a) thenCreate)) (hload : s.pool.heap.cells a = some n) :
    liveWorkers (killProc s.procs n.data.pid) + 1 = liveWorkers s.procs ∧
      readyWorkers (killProc s.procs n.data.pid) = readyWorkers s.procs := by
  obtain ⟨l, hl⟩ := h.inv.live (by simp [hpc])
  obtain ⟨b, w, l₁, l₂, k, p, hab, rfl, hk, hpid, hload', -, hrecv, -, -, hacks⟩ :=
    hl.target hpc (show Action.target (.remove (some a) thenCreate) = some a from rfl) (by simp)
  obtain rfl := Option.some.inj (hload.symm.trans hload')
  have hkill := killProc_eq hk (hl.only hk)
  have hlive : p.live = true := by simp [Proc.live, hk.2]
  have hready : p.ready = false := by simp [Proc.ready, hrecv, hacks]
  have hlive' := countP_set_add Proc.live { p with status := .killed } hk.1
  have hready' := countP_set_add Proc.ready { p with status := .killed } hk.1
  rw [hlive] at hlive'
  rw [hready] at hready'
  simp only [← hpid, hkill]
  exact ⟨hlive', hready'⟩

/-- The counts after a worker is answered. -/
theorem Tracked.ack (h : Tracked cfg s) {wk : Option ℕ} {n : Node Worker} {k : ℕ}
    (hpc : s.pc = .act (.ack wk)) (hload : s.pool.heap.load wk = some n)
    (hfind : findProc s.procs n.data.pid = some k) :
    liveWorkers (updateProc s.procs k fun p => { p with acks := p.acks + 1 }) =
        liveWorkers s.procs ∧
      readyWorkers (updateProc s.procs k fun p => { p with acks := p.acks + 1 }) =
        readyWorkers s.procs + 1 := by
  obtain ⟨l, hl⟩ := h.inv.live (by simp [hpc])
  obtain ⟨a, w, l₁, l₂, j, p, rfl, rfl, hk, hpid, hload', -, hrecv, -, -, hacks⟩ :=
    hl.target hpc (show Action.target (.ack wk) = wk from rfl) (by simp)
  obtain rfl := Option.some.inj (hload.symm.trans hload')
  have hkj : j = k := by
    rw [← hpid, findProc_eq hk (hl.only hk)] at hfind
    exact Option.some.inj hfind
  subst hkj
  have hlive : ({ p with acks := p.acks + 1 } : Proc).live = p.live := rfl
  have hready : p.ready = false := by simp [Proc.ready, hrecv, hacks]
  have hready' : ({ p with acks := p.acks + 1 } : Proc).ready = true := by
    simp [Proc.ready, hrecv, hk.2]
  have hcount := countP_set_add Proc.live { p with acks := p.acks + 1 } hk.1
  have hcount' := countP_set_add Proc.ready { p with acks := p.acks + 1 } hk.1
  rw [hlive] at hcount
  rw [hready, hready'] at hcount'
  rw [updateProc_eq_set hk.1]
  exact ⟨Nat.add_right_cancel hcount, hcount'⟩

theorem coming_handling (d : Datagram) (idle : ℤ) : (MasterPc.handling d).coming cfg idle =
    if d.msg.type = gotRequest then if idle - 1 < cfg.minSpareServers then 1 else 0
    else if d.msg.type = completedRequest then if idle + 1 > cfg.maxSpareServers then 0 else 1
    else 0 :=
  rfl

/-- The workers to come are the same before and after `handle_control_msg`. -/
theorem coming_handle {d : Datagram} {pool : Pool} {act : Action}
    (hm : s.pool.handleControlMsg cfg d.msg = some (pool, act)) :
    act.pc.coming cfg pool.numIdleWorkers =
      (MasterPc.handling d).coming cfg s.pool.numIdleWorkers := by
  rcases (Pool.counters_handleControlMsg hm).2 with
    ⟨htype, hidle, rfl⟩ | ⟨a, htype, hidle, rfl⟩ | ⟨hgot, hcompleted, hidle, rfl⟩
  · simp only [coming_handling, if_pos htype, ← hidle]
    split_ifs <;> rfl
  · have hgot : d.msg.type ≠ gotRequest := by
      rw [htype]
      decide
    simp only [coming_handling, if_neg hgot, if_pos htype, ← hidle]
    split_ifs <;> rfl
  · simp only [MasterPc.coming, if_neg hgot, if_neg hcompleted]
    rfl

/-- A fork brings one of the workers to come. -/
theorem coming_fork (cfg : Config) {pc : MasterPc} {pool : Pool} {pid : ℤ} {a : ℕ}
    (hpc : afterFork s.pc = some pc) (hadd : s.pool.addWorker pid a = some pool) :
    pc.coming cfg pool.numIdleWorkers + 1 = s.pc.coming cfg s.pool.numIdleWorkers := by
  have hidle := (Pool.counters_addWorker hadd).2
  rcases afterFork_eq_some hpc with ⟨n, i, hspawn, -, rfl⟩ | ⟨hcreate, rfl⟩
  · rw [hspawn]
    simp only [MasterPc.coming]
    omega
  · rw [hcreate]
    rfl

theorem coming_nonneg_of_handling (cfg : Config) (d : Datagram) (idle : ℤ) :
    0 ≤ (MasterPc.handling d).coming cfg idle := by
  rw [coming_handling]
  split_ifs <;> omega

theorem liveWorkers_append_fresh (procs : List Proc) (pid : ℤ) :
    liveWorkers (procs ++ [Proc.fresh pid]) = liveWorkers procs + 1 ∧
      readyWorkers (procs ++ [Proc.fresh pid]) = readyWorkers procs + 1 := by
  simp [liveWorkers, readyWorkers, Proc.live, Proc.ready, Proc.fresh]

/-- The end of a batch leaves as many workers to come. -/
theorem coming_afterSpawn (h : StartUp cfg s) {n i : ℤ} (hpc : s.pc = .spawning n i)
    (hin : n ≤ i) : (afterSpawn cfg s.pool.numIdleWorkers n).coming cfg s.pool.numIdleWorkers =
      s.pc.coming cfg s.pool.numIdleWorkers := by
  have hdone := h.spawnCheck hpc hin
  unfold afterSpawn at hdone ⊢
  rw [hpc]
  split
  · rename_i hmin
    have heq := hdone (if_pos hmin)
    simp only [MasterPc.coming]
    omega
  · rfl

/-- A steady step keeps the count of live workers. -/
theorem live_step (h : Tracked cfg s) (hc : Steady cfg s lb) (hs : step cfg s lb = some s')
    (hne : s'.pc ≠ .dead) : s'.pool.numWorkers = liveWorkers s'.procs := by
  cases moves_of_step hs with
  | worker hp hst hw =>
    rename_i k ok p p'
    have hcount := countP_set_add Proc.live p' hp
    rw [(startWorker_steady hst (hc p hp).1 hw).1] at hcount
    have hlive := h.live hne
    simp only [liveWorkers] at hlive ⊢
    omega
  | recv hpc hp hout =>
    rename_i k p m out
    have hcount := countP_set_add Proc.live { p with out := out } hp
    have hlive := h.live (by simp [hpc])
    have hsame : ({ p with out := out } : Proc).live = p.live := rfl
    rw [hsame] at hcount
    simp only [liveWorkers] at hlive ⊢
    omega
  | handle hpc hm => exact (Pool.counters_handleControlMsg hm).1.trans (h.live (by simp [hpc]))
  | fork hpc hpid hfree hadd =>
    have hlive := h.live fun hd => by simp [hd, afterFork] at hpc
    have hcount := (Pool.counters_addWorker hadd).1
    simp only [(liveWorkers_append_fresh s.procs _).1, hcount, hlive]
    push_cast
    rfl
  | forkFail => exact hc.elim
  | spawnCheck hpc => exact h.live (by simp [hpc])
  | killNull hpc => exact h.live (by simp [hpc])
  | kill hpc hload hrem =>
    have hlive := h.live (by simp [hpc])
    have hcount := (Pool.counters_removeWorker hrem).1
    have hkill := (h.kill hpc hload).1
    simp only
    omega
  | ack hpc hload hfind =>
    simp only [(h.ack hpc hload hfind).1]
    exact h.live (by simp [hpc])
  | handleCrash | killCrash | ackFail => exact absurd rfl hne

/-- A worker that accepts leaves enough others ready, and any other step keeps it ready. -/
theorem spare_worker (h : Tracked cfg s) {k : ℕ} {ok : Bool} {p p' : Proc}
    (hc : Steady cfg s (.worker k ok)) (hp : s.procs[k]? = some p) (hst : p.status = .running)
    (hw : startWorker p ok = some p') (hne : s.pc ≠ .dead) :
    cfg.minSpareServers ≤ ({ s with procs := s.procs.set k p' } : Sys).spare cfg := by
  obtain ⟨hok, haccept⟩ := hc p hp
  have hcount := countP_set_add Proc.ready p' hp
  have hspare := h.spare hne
  simp only [Sys.spare, readyWorkers] at hspare haccept ⊢
  by_cases hpc : p.pc = .accept
  · have hlt := haccept hpc
    have hle : (if p.ready = true then 1 else 0) ≤ 1 := by split <;> omega
    omega
  · have hready := (startWorker_steady hst hok hw).2 hpc
    cases hp' : p.ready with
    | true =>
      rw [hready hp', hp'] at hcount
      simp only [if_true] at hcount
      omega
    | false =>
      rw [hp'] at hcount
      simp only [Bool.false_eq_true, if_false] at hcount
      omega

/-- A steady step keeps enough workers ready or coming. -/
theorem spare_step (h : Tracked cfg s) (hc : Steady cfg s lb) (hs : step cfg s lb = some s')
    (hne : s'.pc ≠ .dead) : cfg.minSpareServers ≤ s'.spare cfg := by
  cases moves_of_step hs with
  | worker hp hst hw => exact spare_worker h hc hp hst hw hne
  | recv hpc hp hout =>
    rename_i k p m out
    have hcount := countP_set_add Proc.ready { p with out := out } hp
    have hsame : ({ p with out := out } : Proc).ready = p.ready := rfl
    rw [hsame] at hcount
    have hspare := h.spare (by simp [hpc])
    have hcoming := coming_nonneg_of_handling cfg ⟨m, k⟩ s.pool.numIdleWorkers
    simp only [Sys.spare, readyWorkers, hpc, MasterPc.coming] at hspare
    simp only [Sys.spare, readyWorkers]
    omega
  | handle hpc hm =>
    have hspare := h.spare (by simp [hpc])
    simp only [Sys.spare, hpc] at hspare
    simp only [Sys.spare, coming_handle hm]
    exact hspare
  | fork hpc hpid hfree hadd =>
    have hspare := h.spare fun hd => by simp [hd, afterFork] at hpc
    have hcoming := coming_fork cfg hpc hadd
    simp only [Sys.spare, (liveWorkers_append_fresh s.procs _).2] at hspare ⊢
    push_cast
    omega
  | forkFail => exact hc.elim
  | spawnCheck hpc hin =>
    have hspare := h.spare (by simp [hpc])
    simp only [Sys.spare, coming_afterSpawn h.startUp hpc hin] at hspare ⊢
    exact hspare
  | killNull hpc =>
    rename_i thenCreate
    have hspare := h.spare (by simp [hpc])
    cases thenCreate <;> simpa [Sys.spare, hpc, afterKill, MasterPc.coming] using hspare
  | kill hpc hload hrem =>
    rename_i thenCreate _ _
    have hspare := h.spare (by simp [hpc])
    simp only [Sys.spare, (h.kill hpc hload).2]
    cases thenCreate <;> simpa [Sys.spare, hpc, afterKill, MasterPc.coming] using hspare
  | ack hpc hload hfind =>
    have hspare := h.spare (by simp [hpc])
    simp only [Sys.spare, (h.ack hpc hload hfind).2, hpc, MasterPc.coming] at hspare ⊢
    push_cast
    omega
  | handleCrash | killCrash | ackFail => exact absurd rfl hne

/-- A steady step keeps the counts. -/
theorem tracked_step (h : Tracked cfg s) (hc : Steady cfg s lb) (hs : step cfg s lb = some s') :
    Tracked cfg s' where
  inv := inv_of_steady h.inv hc hs
  startUp := startUp_step h.startUp hs
  live := live_step h hc hs
  spare := spare_step h hc hs

theorem Tracked.poolTracks (h : Tracked cfg s) : PoolTracks cfg s := by
  intro hpc
  have hspare := h.spare (by simp [hpc])
  simp only [Sys.spare, hpc, MasterPc.coming, add_zero] at hspare
  exact ⟨h.live (by simp [hpc]), hspare⟩

/-- A worker that leaves is not live any more. -/
theorem startWorker_exit {p p' : Proc} {ok : Bool}
    (hok : ¬(ok = false → p.pc = .recvAck ∨ p.pc = .close))
    (hw : startWorker p ok = some p') : p'.live = false := by
  obtain ⟨rfl, hpc⟩ : ok = false ∧ ¬(p.pc = .recvAck ∨ p.pc = .close) := by
    simpa only [Classical.not_imp] using hok
  cases workerMoves_of_startWorker hw with
  | exit => rfl
  | recvAckFail hrecv => exact absurd (Or.inl hrecv) hpc
  | close hclose => exact absurd (Or.inr hclose) hpc

/-- While the master waits, a step that is not steady ends outside `PoolTracks`. -/
theorem not_poolTracks_of_not_steady (h : Tracked cfg s) (hpc : s.pc = .recv)
    (hc : ¬Steady cfg s lb) (hs : step cfg s lb = some s') : ¬PoolTracks cfg s' := by
  intro htracks
  cases moves_of_step hs with
  | worker hp hst hw =>
    rename_i k ok p p'
    obtain ⟨hlive', hready'⟩ := htracks hpc
    obtain ⟨q, hq⟩ := not_forall.1 hc
    obtain ⟨hpq, hq⟩ := Classical.not_imp.1 hq
    obtain rfl : p = q := Option.some.inj (hp.symm.trans hpq)
    have hlive := h.live (by simp [hpc])
    have hlivep : p.live = true := by simp [Proc.live, hst]
    have hcount := countP_set_add Proc.live p' hp
    have hcount' := countP_set_add Proc.ready p' hp
    simp only [liveWorkers] at hlive hlive'
    rw [hlivep] at hcount
    by_cases hok : ok = false → p.pc = .recvAck ∨ p.pc = .close
    · -- the worker accepted, and nobody is coming
      obtain ⟨hacc, hspare⟩ := Classical.not_imp.1 fun himp => hq ⟨hok, himp⟩
      have hreadyp : p.ready = true := by simp [Proc.ready, hst, hacc]
      have hgone : p'.ready = false := by
        cases workerMoves_of_startWorker hw with
        | accept => simp [Proc.ready]
        | exit hrecv hclose => exact absurd (hok rfl) (not_or.2 ⟨hrecv, hclose⟩)
        | bind hpc' | recvAck hpc' | recvAckFail hpc' | sendGot hpc' | recvReq hpc' | sendRes hpc'
        | close hpc' | sendCompleted hpc' =>
          rw [hacc] at hpc'
          cases hpc'
      rw [hreadyp, hgone] at hcount'
      simp only [Sys.spare, hpc, MasterPc.coming, readyWorkers] at hspare hready'
      simp only [if_true, Bool.false_eq_true, if_false] at hcount'
      omega
    · rw [startWorker_exit hok hw] at hcount
      simp only [if_true, Bool.false_eq_true, if_false] at hcount
      omega
  | forkFail hfork hadd => simp [hpc, afterFork] at hfork
  | recv | handle | handleCrash | fork | spawnCheck | killNull | kill | killCrash | ack | ackFail =>
    exact hc trivial

end Steps

/-! ## Results -/

/-- In a run of steady steps the pool tracks the processes in every state. -/
theorem pool_tracks {cfg : Config} {ls : List Label}
    (hc : StepsMeet (step cfg) (Steady cfg) init ls) :
    Along (step cfg) (PoolTracks cfg) init ls :=
  along_of_stepsMeet (fun _ => Tracked.poolTracks) (fun _ _ _ => tracked_step)
    (tracked_init cfg) hc

/-- The only worker fails in `accept`. The master goes on counting it. -/
theorem not_poolTracks_acceptFails : ¬∀ ls, (run (step ⟨1, 5, 5⟩) init ls).isSome →
    Along (step ⟨1, 5, 5⟩) (PoolTracks ⟨1, 5, 5⟩) init ls := by
  intro h
  obtain ⟨s, hs, hpc⟩ := Option.map_eq_some_iff.1 (show (run (step ⟨1, 5, 5⟩) init
    [.fork 100 0, .spawnCheck, .worker 0 true, .worker 0 false]).map
    (fun s => (s.pc, s.pool.numWorkers, liveWorkers s.procs)) = some (.recv, 1, 0) by decide)
  simp only [Prod.mk.injEq] at hpc
  obtain ⟨hrecv, hworkers, hlive⟩ := hpc
  have htracks := (h _ (by rw [hs]; rfl)).last hs hrecv
  rw [hworkers, hlive] at htracks
  exact absurd htracks.1 (by decide)

/-- Three workers are started, and one of them serves a request. -/
theorem pool_tracks_served : ∃ ls, (run (step ⟨2, 5, 5⟩) init ls).map Sys.pc = some .recv ∧
    Along (step ⟨2, 5, 5⟩) (PoolTracks ⟨2, 5, 5⟩) init ls :=
  ⟨[.fork 100 0, .spawnCheck, .fork 101 1, .fork 102 2, .spawnCheck, .worker 0 true,
      .worker 0 true, .worker 0 true, .recv 0, .handle, .worker 0 true, .worker 0 true,
      .worker 0 true, .worker 0 true, .recv 0, .handle, .ack], by decide,
    pool_tracks (by decide)⟩

end NetProg.Prefork
