import NetProg.Prefork.Moves
import NetProg.Prefork.Safety

/-!
# The quota of requests

The master compares the count in a `COMPLETED_REQUEST` with `maxRequestsPerChild` by
equality, and removes the worker when they are equal. That bounds the worker because it
waits for `READ_ALLOWED` after each request : `Proc.WithinQuota` says how far a worker can
be at each place, and that an answer is on its way only below the quota.

The connections a worker accepted, its reports and the reports the master handled are
counted along the run (`stepCount`). Each of the three is a quantity of the state of one
process, and `request_quota` reads the counts off the invariants.
-/

namespace NetProg.Prefork

/-! ## The invariant -/

/-- How many requests a worker can have served where it stands, and which `READ_ALLOWED`
can be at its socket. -/
def Proc.WithinQuota (cfg : Config) (p : Proc) : Prop :=
  match p.pc with
  | .bind | .accept | .sendGot | .recvReq | .sendRes | .close =>
    p.reqsHandled < cfg.maxRequestsPerChild ∧ p.acks = 0
  | .sendCompleted => p.reqsHandled ≤ cfg.maxRequestsPerChild ∧ p.acks = 0
  | .recvAck =>
    p.reqsHandled ≤ cfg.maxRequestsPerChild ∧ p.acks = 0 ∨
      p.reqsHandled < cfg.maxRequestsPerChild ∧ p.acks = 1

/-- Every worker is within the quota, and the one that is answered next is below it. -/
structure WithinQuota (cfg : Config) (s : Sys) : Prop where
  procs : ∀ p ∈ s.procs, p.WithinQuota cfg
  answered : ∀ wk, s.pc = .act (.ack wk) → ∀ n, s.pool.heap.load wk = some n →
    n.data.reqsHandled ≠ cfg.maxRequestsPerChild

section Steps

variable {cfg : Config} {s s' : Sys} {lb : Label}

theorem Proc.WithinQuota.startWorker {p p' : Proc} {ok : Bool} (h : p.WithinQuota cfg)
    (hw : startWorker p ok = some p') : p'.WithinQuota cfg := by
  cases workerMoves_of_startWorker hw with
  | recvAck hpc hacks =>
    simp only [Proc.WithinQuota, hpc] at h
    obtain ⟨hreqs, hone⟩ := h.resolve_left fun hz => hacks hz.2
    exact ⟨hreqs, by simp [hone]⟩
  | close hpc =>
    simp only [Proc.WithinQuota, hpc] at h
    exact ⟨by simp only; omega, h.2⟩
  | sendCompleted hpc =>
    simp only [Proc.WithinQuota, hpc] at h
    exact Or.inl h
  | bind hpc | accept hpc | sendGot hpc | recvReq hpc | sendRes hpc =>
    simp only [Proc.WithinQuota, hpc] at h
    exact h
  | recvAckFail | exit => exact h

theorem Link.reqsHandled_of_owed {pend : List ControlMsg} {owed : Prop} {w : Worker} {p : Proc}
    (h : Link pend owed w p) (ho : owed) : w.reqsHandled = p.reqsHandled := by
  have hpc := (h.of_owed ho).1
  unfold Link at h
  simp only [hpc] at h
  rcases h with ⟨-, -, -, hno⟩ | ⟨-, -, hreqs, -⟩
  · exact absurd ho hno
  · exact hreqs

/-- The worker that is answered waits below the quota. -/
theorem WithinQuota.ack (h : WithinQuota cfg s) (hi : Inv cfg s) {wk : Option ℕ}
    {n : Node Worker} {k : ℕ} {p : Proc} (hpc : s.pc = .act (.ack wk))
    (hload : s.pool.heap.load wk = some n) (hfind : findProc s.procs n.data.pid = some k)
    (hp : s.procs[k]? = some p) : ({ p with acks := p.acks + 1 } : Proc).WithinQuota cfg := by
  obtain ⟨l, hl⟩ := hi.live (by simp [hpc])
  obtain ⟨a, w, l₁, l₂, j, q, rfl, rfl, hk, hpid, hload', hlink, hrecv, -, -, hacks⟩ :=
    hl.target hpc (show Action.target (.ack wk) = wk from rfl) (by simp)
  obtain rfl := Option.some.inj (hload.symm.trans hload')
  rw [← hpid, findProc_eq hk (hl.only hk)] at hfind
  obtain rfl := Option.some.inj hfind
  obtain rfl : q = p := Option.some.inj (hk.1.symm.trans hp)
  have hbelow := h.answered _ hpc _ hload
  have hreqs : w.reqsHandled = q.reqsHandled := hlink.reqsHandled_of_owed trivial
  have hq := h.procs q (List.mem_of_getElem? hp)
  simp only [Proc.WithinQuota, hrecv] at hq ⊢
  refine Or.inr ⟨?_, by simp [hacks]⟩
  simp only at hbelow
  omega

theorem withinQuota_step (hquota : 1 ≤ cfg.maxRequestsPerChild) (hi : Inv cfg s)
    (h : WithinQuota cfg s) (hs : step cfg s lb = some s') : WithinQuota cfg s' where
  procs := forall_mem_of_step h.procs hs (fun _ _ _ hp hw => hp.startWorker hw)
    (fun _ _ _ hp _ => hp) (fun _ => ⟨by simp [Proc.fresh]; omega, rfl⟩) (fun _ hp => hp)
    fun _ _ _ _ hpc hload hfind hp => h.ack hi hpc hload hfind hp
  answered wk hpc n hn := by
    rcases ack_of_step hs hpc with ⟨hpc', hpool⟩ | ⟨msg, hm⟩
    · rw [hpool] at hn
      exact h.answered wk hpc' n hn
    · obtain ⟨n', hn', hreqs, hne⟩ := Pool.reqsHandled_of_ack hm
      obtain rfl : n = n' := Option.some.inj (hn.symm.trans hn')
      rw [hreqs]
      exact fun heq => hne (heq ▸ rfl)

end Steps

/-! ## Counting along a run -/

/-- A system call of worker `k` at `pc` succeeds. -/
def passes (pc : WorkerPc) (k : ℕ) (s : Sys) : Label → Bool
  | .worker j ok => j == k && ok && s.procs[k]?.any fun p => p.pc == pc
  | _ => false

/-- The reports in a list of messages. -/
def reportsIn (ms : List ControlMsg) : ℕ :=
  ms.countP fun m => m.type == completedRequest

/-- `handle_control_msg` runs on a report of worker `k`. -/
def hears (k : ℕ) (s : Sys) : Label → Bool
  | .handle => reportsIn (s.pc.held k) == 1
  | _ => false

/-- The connections accepted, as the worker's state has it. -/
def Proc.accepted (p : Proc) : ℤ :=
  p.reqsHandled + if p.holdsConnection then 1 else 0

/-- The reports sent, as the worker's state has it. -/
def Proc.reported (p : Proc) : ℤ :=
  p.reqsHandled - if p.pc = .sendCompleted then 1 else 0

/-- A quantity of process `k`, which is 0 before the fork. -/
def ofProc (procs : List Proc) (k : ℕ) (f : Proc → ℤ) : ℤ :=
  procs[k]?.elim 0 f

section Count

variable {procs : List Proc} {k j : ℕ} {p p' : Proc} {f : Proc → ℤ}

theorem ofProc_eq (hp : procs[k]? = some p) : ofProc procs k f = f p := by
  simp [ofProc, hp]

theorem ofProc_set (hp : procs[j]? = some p) :
    ofProc (procs.set j p') k f = ofProc procs k f + if j = k then f p' - f p else 0 := by
  have hlt : j < procs.length := (List.getElem?_eq_some_iff.1 hp).1
  unfold ofProc
  rw [List.getElem?_set]
  by_cases hjk : j = k
  · subst hjk
    rw [if_pos rfl, if_pos hlt, hp]
    simp
  · simp [hjk]

theorem ofProc_updateProc {g : Proc → Proc} (hg : ∀ p, f (g p) = f p) :
    ofProc (updateProc procs j g) k f = ofProc procs k f := by
  unfold updateProc
  split
  · rename_i p hp
    simp [ofProc_set hp, hg]
  · rfl

theorem ofProc_killProc (hf : ∀ p : Proc, f { p with status := .killed } = f p) {pid : ℤ} :
    ofProc (killProc procs pid) k f = ofProc procs k f := by
  unfold killProc
  split
  · exact ofProc_updateProc hf
  · rfl

theorem ofProc_append_fresh {pid : ℤ} (hf : f (Proc.fresh pid) = 0) :
    ofProc (procs ++ [Proc.fresh pid]) k f = ofProc procs k f := by
  unfold ofProc
  rcases lt_trichotomy k procs.length with hk | rfl | hk
  · rw [List.getElem?_append_left hk]
  · simp [hf]
  · rw [List.getElem?_eq_none (by simp; omega), List.getElem?_eq_none (by omega)]

/-- Only a successful accept takes a connection. -/
theorem startWorker_accepted {ok : Bool} (hw : startWorker p ok = some p') :
    p'.accepted = p.accepted + if ok && p.pc == .accept then 1 else 0 := by
  cases workerMoves_of_startWorker hw with
  | recvAckFail | exit => exact (add_zero _).symm
  | bind hpc | recvAck hpc | accept hpc | sendGot hpc | recvReq hpc | sendRes hpc | close hpc
  | sendCompleted hpc => simp [Proc.accepted, Proc.holdsConnection, hpc]

/-- Only the last call of a turn reports. A report sent is on its way. -/
theorem startWorker_reported {ok : Bool} (hw : startWorker p ok = some p') :
    p'.reported = p.reported + (if ok && p.pc == .sendCompleted then 1 else 0) ∧
      p'.reported - reportsIn p'.out = p.reported - reportsIn p.out := by
  cases workerMoves_of_startWorker hw with
  | recvAckFail | exit => exact ⟨(add_zero _).symm, rfl⟩
  | sendCompleted hpc =>
    simp only [Proc.reported, reportsIn, hpc, List.countP_append, List.countP_singleton]
    simp
    omega
  | bind hpc | recvAck hpc | accept hpc | sendGot hpc | recvReq hpc | sendRes hpc | close hpc =>
    simp [Proc.reported, reportsIn, hpc, gotRequest, completedRequest]

end Count

section Counts

variable {cfg : Config} {s s' : Sys} {lb : Label} {k : ℕ}

/-- What a step changes of a quantity that only the worker's own calls change. -/
theorem ofProc_step {f : Proc → ℤ} {pc : WorkerPc} (hfresh : ∀ pid, f (Proc.fresh pid) = 0)
    (hkill : ∀ p : Proc, f { p with status := .killed } = f p)
    (hack : ∀ p : Proc, f { p with acks := p.acks + 1 } = f p)
    (hrecv : ∀ (p : Proc) out, f { p with out := out } = f p)
    (hcall : ∀ p p' ok, startWorker p ok = some p' →
      f p' = f p + if ok && p.pc == pc then 1 else 0)
    (hs : step cfg s lb = some s') :
    ofProc s'.procs k f = ofProc s.procs k f + if passes pc k s lb then 1 else 0 := by
  cases moves_of_step hs with
  | worker hp hst hw =>
    rename_i j ok p p'
    simp only [ofProc_set hp, hcall p p' ok hw, passes]
    by_cases hjk : j = k
    · subst hjk
      simp [hp]
    · simp [hjk]
  | recv hpc hp hout => simp [ofProc_set hp, hrecv, passes]
  | fork => simp [ofProc_append_fresh (hfresh _), passes]
  | kill => simp [ofProc_killProc hkill, passes]
  | killCrash hpc hprocs =>
    rcases hprocs with rfl | ⟨n, -, rfl⟩
    · simp [passes]
    · simp [ofProc_killProc hkill, passes]
  | ack => simp [ofProc_updateProc hack, passes]
  | handle | handleCrash | forkFail | spawnCheck | killNull | ackFail => simp [passes]

/-- The connections that worker `k` accepts in a run. -/
theorem accepted_eq {ls : List Label} (hr : run (step cfg) init ls = some s) :
    (stepCount (step cfg) (passes .accept k) init ls : ℤ) = ofProc s.procs k Proc.accepted := by
  rw [stepCount_eq (m := fun s => ofProc s.procs k Proc.accepted) (fun s lb s' hs =>
    ofProc_step (fun _ => rfl) (fun _ => rfl) (fun _ => rfl) (fun _ _ => rfl)
      (fun _ _ _ => startWorker_accepted) hs) hr]
  simp [init, ofProc]

/-- The reports that worker `k` sends in a run. -/
theorem reported_eq {ls : List Label} (hr : run (step cfg) init ls = some s) :
    (stepCount (step cfg) (passes .sendCompleted k) init ls : ℤ) =
      ofProc s.procs k Proc.reported := by
  rw [stepCount_eq (m := fun s => ofProc s.procs k Proc.reported) (fun s lb s' hs =>
    ofProc_step (fun _ => rfl) (fun _ => rfl) (fun _ => rfl) (fun _ _ => rfl)
      (fun _ _ _ hw => (startWorker_reported hw).1) hs) hr]
  simp [init, ofProc]

/-- The reports of worker `k` that are not on their way. -/
def heardOf (k : ℕ) (s : Sys) : ℤ :=
  ofProc s.procs k (fun p => p.reported - reportsIn p.out) - reportsIn (s.pc.held k)

theorem held_of_ne {pc : MasterPc} (h : ∀ d, pc ≠ .handling d) : pc.held k = [] := by
  cases pc with
  | handling d => exact absurd rfl (h d)
  | spawning | recv | act | dead => rfl

theorem afterFork_held {pc pc' : MasterPc} (h : afterFork pc = some pc') :
    pc.held k = [] ∧ pc'.held k = [] := by
  rcases afterFork_eq_some h with ⟨n, i, rfl, -, rfl⟩ | ⟨rfl, rfl⟩ <;> exact ⟨rfl, rfl⟩

theorem heardOf_handling (d : Datagram) (hpc : s.pc = .handling d) (n : ℤ) :
    n - reportsIn [] = n - reportsIn ((MasterPc.handling d).held k) +
      if hears k s .handle then 1 else 0 := by
  simp only [hears, hpc, MasterPc.held]
  by_cases hd : d.src = k
  · by_cases htype : d.msg.type = completedRequest <;> simp [hd, reportsIn, htype]
  · simp [hd, reportsIn]

/-- Receiving moves a report, and handling it is what makes it heard. -/
theorem heardOf_step (hs : step cfg s lb = some s') :
    heardOf k s' = heardOf k s + if hears k s lb then 1 else 0 := by
  unfold heardOf
  cases moves_of_step hs with
  | worker hp hst hw =>
    rw [ofProc_set hp, (startWorker_reported hw).2]
    simp [hears]
  | recv hpc hp hout =>
    rename_i j p m out
    rw [ofProc_set hp, hpc, hout]
    by_cases hjk : j = k
    · subst hjk
      simp only [Proc.reported, reportsIn, MasterPc.held, hears, List.countP_cons,
        List.countP_nil, if_true]
      simp
    · simp [MasterPc.held, hears, hjk]
  | handle hpc hm =>
    rename_i d pool act
    rw [Action.held_pc, hpc]
    exact heardOf_handling d hpc _
  | handleCrash hpc hm =>
    rename_i d
    rw [hpc]
    exact heardOf_handling d hpc _
  | fork hpc hpid hfree hadd =>
    obtain ⟨h₁, h₂⟩ := afterFork_held hpc
    rw [ofProc_append_fresh rfl, h₁, h₂]
    simp [hears]
  | forkFail hpc hadd =>
    obtain ⟨h₁, h₂⟩ := afterFork_held hpc
    rw [h₁, h₂]
    simp [hears]
  | spawnCheck hpc =>
    rw [held_of_ne (afterSpawn_ne _ _).1, hpc]
    simp [hears, MasterPc.held]
  | killNull hpc =>
    rw [held_of_ne (afterKill_ne _).1, hpc]
    simp [hears, MasterPc.held]
  | kill hpc =>
    rw [ofProc_killProc fun _ => rfl, held_of_ne (afterKill_ne _).1, hpc]
    simp [hears, MasterPc.held]
  | killCrash hpc hprocs =>
    rw [hpc]
    rcases hprocs with rfl | ⟨n, -, rfl⟩
    · simp [hears, MasterPc.held]
    · rw [ofProc_killProc fun _ => rfl]
      simp [hears, MasterPc.held]
  | ack hpc =>
    rw [ofProc_updateProc (f := fun p => p.reported - reportsIn p.out)
      (g := fun p => { p with acks := p.acks + 1 }) fun _ => rfl, hpc]
    simp [hears, MasterPc.held]
  | ackFail hpc =>
    rw [hpc]
    simp [hears, MasterPc.held]

/-- The reports of worker `k` that the master handles in a run. -/
theorem heard_eq {ls : List Label} (hr : run (step cfg) init ls = some s) :
    (stepCount (step cfg) (hears k) init ls : ℤ) = heardOf k s := by
  rw [stepCount_eq (m := heardOf k) (fun s lb s' hs => heardOf_step hs) hr]
  simp [heardOf, init, ofProc, exponentialSpawn, MasterPc.held, reportsIn]

end Counts

/-! ## Result -/

/-- Process `k` in the state `s` at the end of a run. -/
structure QuotaKept (cfg : Config) (ls : List Label) (s : Sys) (k : ℕ) : Prop where
  accepted : (stepCount (step cfg) (passes .accept k) init ls : ℤ) ≤ cfg.maxRequestsPerChild
  /-- Every report was handled, or is on its way. -/
  reported : ∀ p, s.procs[k]? = some p →
    stepCount (step cfg) (passes .sendCompleted k) init ls =
      stepCount (step cfg) (hears k) init ls + reportsIn (s.pc.held k ++ p.out)
  /-- The entry of a live worker has the number of its reports. -/
  stored : s.pc ≠ .dead → ∀ p, Running s.procs k p → ∃ a n,
    s.pool.getWorkerById p.pid = some (some a) ∧ s.pool.heap.cells a = some n ∧
    n.data.reqsHandled = stepCount (step cfg) (hears k) init ls

theorem Proc.WithinQuota.accepted_le {cfg : Config} {p : Proc} (h : p.WithinQuota cfg) :
    p.accepted ≤ cfg.maxRequestsPerChild := by
  unfold Proc.WithinQuota at h
  unfold Proc.accepted Proc.holdsConnection
  cases hpc : p.pc <;> simp only [hpc] at h ⊢ <;> simp <;> omega

/-- The entry counts the reports that are not pending. -/
theorem Link.reqsHandled_eq {pend : List ControlMsg} {owed : Prop} {w : Worker} {p : Proc}
    (h : Link pend owed w p) : w.reqsHandled = p.reported - reportsIn pend := by
  unfold Link at h
  unfold Proc.reported
  cases hpc : p.pc with
  | bind | accept | sendGot =>
    simp only [hpc] at h
    obtain ⟨rfl, -, hreqs, -⟩ := h
    simp [hreqs, reportsIn]
  | recvReq | sendRes | close | sendCompleted =>
    simp only [hpc] at h
    obtain ⟨⟨rfl, -⟩ | ⟨rfl, -⟩, hreqs, -⟩ := h <;>
      simp [hreqs, reportsIn, gotRequest, completedRequest]
  | recvAck =>
    simp only [hpc] at h
    obtain ⟨⟨rfl, -⟩ | ⟨rfl, -⟩, hreqs, -⟩ | ⟨rfl, -, hreqs, -⟩ := h <;>
      simp [hreqs, reportsIn, gotRequest, completedRequest]

/-- No worker accepts more than `maxRequestsPerChild` connections, and the master's count
is the number of reports it handled. -/
theorem request_quota {cfg : Config} (hquota : 1 ≤ cfg.maxRequestsPerChild) {ls : List Label}
    (hls : ∀ l ∈ ls, l.succeeds = true) {s : Sys} (hr : run (step cfg) init ls = some s) (k : ℕ) :
    QuotaKept cfg ls s k := by
  have hinv : Inv cfg s ∧ WithinQuota cfg s :=
    run_invariant (I := fun s => Inv cfg s ∧ WithinQuota cfg s)
      (c := fun _ lb => lb.succeeds = true)
      (fun s lb s' h hok hs => ⟨inv_step h.1 hok hs, withinQuota_step hquota h.1 h.2 hs⟩)
      ⟨inv_init cfg, by simp [init], by simp [init, exponentialSpawn]⟩
      (stepsMeet_of_forall (fun lb hlb _ => hls lb hlb) init) hr
  have hheard : ∀ p, s.procs[k]? = some p → (stepCount (step cfg) (hears k) init ls : ℤ) =
      p.reported - reportsIn (s.pc.held k ++ p.out) := by
    intro p hp
    rw [heard_eq hr, heardOf, ofProc_eq hp]
    simp only [reportsIn, List.countP_append]
    push_cast
    ring
  refine ⟨?_, fun p hp => ?_, fun hlive p hp => ?_⟩
  · rw [accepted_eq hr]
    cases hp : s.procs[k]? with
    | none =>
      simp only [ofProc, hp, Option.elim_none]
      omega
    | some p =>
      rw [ofProc_eq hp]
      exact (hinv.2.procs p (List.mem_of_getElem? hp)).accepted_le
  · have hsent := reported_eq (k := k) hr
    rw [ofProc_eq hp] at hsent
    have := hheard p hp
    omega
  · obtain ⟨l, hl⟩ := hinv.1.live hlive
    obtain ⟨⟨a, w⟩, hx, hpid, hlink⟩ := hl.proc k p hp
    obtain ⟨l₁, l₂, rfl⟩ := List.append_of_mem hx
    refine ⟨a, _, ?_, (dseg_append.1 hl.rep.list.seg).2.1, ?_⟩
    · rw [← hpid]
      exact Pool.getWorkerById_of_mem hl.rep
    · rw [hheard p hp.1]
      exact hlink.reqsHandled_eq

/-- A worker that has served one of two requests and accepted the second. -/
theorem request_quota_second : ∃ s, run (step ⟨1, 5, 2⟩) init
    [.fork 100 0, .spawnCheck, .worker 0 true, .worker 0 true, .worker 0 true, .recv 0, .handle,
      .fork 101 1, .worker 0 true, .worker 0 true, .worker 0 true, .worker 0 true, .recv 0,
      .handle, .ack, .worker 0 true, .worker 0 true] = some s ∧
    QuotaKept ⟨1, 5, 2⟩ [.fork 100 0, .spawnCheck, .worker 0 true, .worker 0 true, .worker 0 true,
      .recv 0, .handle, .fork 101 1, .worker 0 true, .worker 0 true, .worker 0 true,
      .worker 0 true, .recv 0, .handle, .ack, .worker 0 true, .worker 0 true] s 0 := by
  obtain ⟨s, hs⟩ := Option.isSome_iff_exists.1 (show (run (step ⟨1, 5, 2⟩) init
    [.fork 100 0, .spawnCheck, .worker 0 true, .worker 0 true, .worker 0 true, .recv 0, .handle,
      .fork 101 1, .worker 0 true, .worker 0 true, .worker 0 true, .worker 0 true, .recv 0,
      .handle, .ack, .worker 0 true, .worker 0 true]).isSome by decide)
  exact ⟨s, hs, request_quota (by decide) (by decide) hs 0⟩

end NetProg.Prefork
