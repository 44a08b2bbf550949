import NetProg.Prefork.Moves

/-!
# Safety of the prefork protocol

`Link` ties one entry of the list to its worker process : where the worker stands decides
which of its messages are pending, what `is_idle` says and whether a `READ_ALLOWED` is on
its way. A message counts as pending until `handle_control_msg` has run on it. `Live` says
that the entries and the running processes match one to one, each pair linked, and gives
the lower bound on `num_idle_workers` at each place of the master. `Ended` is what holds
of a process that was killed. `reachable_inv` proves both in every reachable state.

`protocol_safety` and `pool_accounting` read the two results off the invariant.
-/

namespace NetProg.Prefork

/-! ## The invariant -/

/-- A worker's entry `w`, its process `p` and its pending messages. `owed` says that the
master is about to answer the last `COMPLETED_REQUEST`. -/
def Link (pend : List ControlMsg) (owed : Prop) (w : Worker) (p : Proc) : Prop :=
  match p.pc with
  | .bind | .accept | .sendGot =>
    pend = [] ∧ w.isIdle = 1 ∧ w.reqsHandled = p.reqsHandled ∧ p.acks = 0 ∧ ¬owed
  | .recvReq | .sendRes | .close =>
    (pend = [⟨gotRequest, p.pid, p.reqsHandled⟩] ∧ w.isIdle = 1 ∨ pend = [] ∧ w.isIdle = 0) ∧
      w.reqsHandled = p.reqsHandled ∧ p.acks = 0 ∧ ¬owed
  | .sendCompleted =>
    (pend = [⟨gotRequest, p.pid, p.reqsHandled - 1⟩] ∧ w.isIdle = 1 ∨
        pend = [] ∧ w.isIdle = 0) ∧
      w.reqsHandled = p.reqsHandled - 1 ∧ p.acks = 0 ∧ ¬owed
  | .recvAck =>
    (pend = [⟨gotRequest, p.pid, p.reqsHandled - 1⟩, ⟨completedRequest, p.pid, p.reqsHandled⟩] ∧
          w.isIdle = 1 ∨
        pend = [⟨completedRequest, p.pid, p.reqsHandled⟩] ∧ w.isIdle = 0) ∧
        w.reqsHandled = p.reqsHandled - 1 ∧ p.acks = 0 ∧ ¬owed ∨
      pend = [] ∧ w.isIdle = 1 ∧ w.reqsHandled = p.reqsHandled ∧
        (owed ∧ p.acks = 0 ∨ ¬owed ∧ p.acks = 1)

/-- The message of process `k` that the master holds and has not handled. -/
def MasterPc.held (pc : MasterPc) (k : ℕ) : List ControlMsg :=
  match pc with
  | .handling d => if d.src = k then [d.msg] else []
  | _ => []

/-- The entry whose worker is about to be killed or answered. -/
def Action.target : Action → Option ℕ
  | .remove wk _ | .ack wk => wk
  | .done | .create => none

def MasterPc.owed : MasterPc → Option ℕ
  | .act a => a.target
  | _ => none

/-- The lower bound on `num_idle_workers` where the master stands. -/
def MasterPc.idleBound (cfg : Config) (idle : ℤ) : MasterPc → Prop
  | .recv | .handling _ => cfg.minSpareServers ≤ idle
  | .act .create => cfg.minSpareServers ≤ idle + 1
  | .act (.remove _ _) | .act (.ack _) => cfg.minSpareServers + 1 ≤ idle
  | .act .done => False
  | .spawning _ _ | .dead => True

/-- Process `k` is `p`, and it runs. -/
def Running (procs : List Proc) (k : ℕ) (p : Proc) : Prop :=
  procs[k]? = some p ∧ p.status = .running

/-- Entries and running processes match. -/
structure Live (cfg : Config) (s : Sys) (l : List (ℕ × Worker)) : Prop where
  rep : s.pool.Rep l
  proc : ∀ k (p : Proc), Running s.procs k p →
    ∃ x ∈ l, x.2.pid = p.pid ∧ Link (s.pc.held k ++ p.out) (s.pc.owed = some x.1) x.2 p
  entry : ∀ x ∈ l, ∃ k p, Running s.procs k p ∧ p.pid = x.2.pid
  unique : ∀ k k' p p', Running s.procs k p → Running s.procs k' p' → p.pid = p'.pid → k = k'
  held : ∀ d, s.pc = .handling d → ∃ p, Running s.procs d.src p
  owed : ∀ a, s.pc = .act a → a ≠ .create → ∃ x ∈ l, s.pc.owed = some x.1
  idle : s.pc.idleBound cfg s.pool.numIdleWorkers

/-- A process that is not running was killed while it waited for `READ_ALLOWED`. -/
def Ended (procs : List Proc) : Prop :=
  ∀ (k : ℕ) (p : Proc), procs[k]? = some p → p.status ≠ .running →
    p.status = .killed ∧ p.pc = .recvAck ∧ p.out = []

/-- What holds in every reachable state. -/
structure Inv (cfg : Config) (s : Sys) : Prop where
  ended : Ended s.procs
  live : s.pc ≠ .dead → ∃ l, Live cfg s l

/-! ## Links -/

section Link

variable {pend : List ControlMsg} {owed : Prop} {w : Worker} {p p' : Proc}

theorem startWorker_eq (hp : startWorker p true = some p') :
    p'.pid = p.pid ∧ p'.status = p.status := by
  cases workerMoves_of_startWorker hp <;> exact ⟨rfl, rfl⟩

/-- A system call of a worker keeps its link. What it sends is pending last. -/
theorem Link.startWorker {held : List ControlMsg} (h : Link (held ++ p.out) owed w p)
    (hp : startWorker p true = some p') : Link (held ++ p'.out) owed w p' := by
  unfold Link at h
  cases workerMoves_of_startWorker hp with
  | recvAck hpc hacks =>
    simp only [hpc] at h
    rcases h with ⟨-, -, hz, -⟩ | ⟨hpend, hidle, hreqs, ⟨-, hz⟩ | ⟨ho, hone⟩⟩
    · exact absurd hz hacks
    · exact absurd hz hacks
    · exact ⟨hpend, hidle, hreqs, by simp [hone], ho⟩
  | sendGot hpc =>
    simp only [hpc] at h
    obtain ⟨hpend, hidle, hreqs, hacks, ho⟩ := h
    obtain ⟨rfl, hout⟩ := List.append_eq_nil_iff.1 hpend
    exact ⟨Or.inl ⟨by simp [hout], hidle⟩, hreqs, hacks, ho⟩
  | sendCompleted hpc =>
    simp only [hpc] at h
    obtain ⟨hpend, hreqs, hacks, ho⟩ := h
    refine Or.inl ⟨?_, hreqs, hacks, ho⟩
    rcases hpend with ⟨hpend, hidle⟩ | ⟨hpend, hidle⟩
    · exact Or.inl ⟨by rw [← List.append_assoc, hpend]; rfl, hidle⟩
    · exact Or.inr ⟨by rw [← List.append_assoc, hpend]; rfl, hidle⟩
  | close hpc =>
    simp only [hpc] at h
    obtain ⟨hpend, hreqs, hacks, ho⟩ := h
    exact ⟨by simpa using hpend, by simpa using hreqs, hacks, ho⟩
  | bind hpc | accept hpc | recvReq hpc | sendRes hpc =>
    simp only [hpc] at h
    exact h

/-- The oldest pending message fits the entry, and handling it keeps the link. -/
theorem Link.handleMsg {m : ControlMsg} {rest : List ControlMsg} (h : Link (m :: rest) owed w p)
    (hpid : w.pid = p.pid) : m.pid = w.pid ∧
      (m.type = gotRequest ∧ w.isIdle = 1 ∧ Link rest False { w with isIdle := 0 } p ∨
        m.type = completedRequest ∧ w.isIdle = 0 ∧
          Link rest True { w with isIdle := 1, reqsHandled := m.reqsHandled } p) := by
  rw [hpid]
  unfold Link at h ⊢
  cases hpc : p.pc with
  | bind | accept | sendGot => simp [hpc] at h
  | recvReq | sendRes | close | sendCompleted =>
    simp only [hpc, List.cons.injEq, reduceCtorEq, false_and, or_false] at h ⊢
    obtain ⟨⟨⟨rfl, rfl⟩, hidle⟩, hreqs, hacks, -⟩ := h
    exact ⟨rfl, Or.inl ⟨rfl, hidle, by simp, hreqs, hacks, not_false⟩⟩
  | recvAck =>
    simp only [hpc, List.cons.injEq, reduceCtorEq, false_and, or_false] at h ⊢
    obtain ⟨⟨⟨rfl, rfl⟩, hidle⟩ | ⟨⟨rfl, rfl⟩, hidle⟩, hreqs, hacks, -⟩ := h
    · exact ⟨rfl, Or.inl ⟨rfl, hidle, Or.inl ⟨by simp, hreqs, hacks, not_false⟩⟩⟩
    · exact ⟨rfl, Or.inr ⟨rfl, hidle, by simp [hacks]⟩⟩

/-- A worker that is owed an answer waits for it, and nothing of it is pending. -/
theorem Link.of_owed (h : Link pend owed w p) (ho : owed) :
    p.pc = .recvAck ∧ pend = [] ∧ w.isIdle = 1 ∧ p.acks = 0 := by
  unfold Link at h
  cases hpc : p.pc with
  | bind | accept | sendGot => exact absurd ho (by simp only [hpc] at h; exact h.2.2.2.2)
  | recvReq | sendRes | close | sendCompleted =>
    exact absurd ho (by simp only [hpc] at h; exact h.2.2.2)
  | recvAck =>
    simp only [hpc] at h
    rcases h with ⟨-, -, -, hno⟩ | ⟨hpend, hidle, -, ⟨-, hacks⟩ | ⟨hno, -⟩⟩
    · exact absurd ho hno
    · exact ⟨rfl, hpend, hidle, hacks⟩
    · exact absurd ho hno

/-- `READ_ALLOWED` ends the debt. -/
theorem Link.ack (h : Link pend owed w p) (ho : owed) :
    Link pend False w { p with acks := p.acks + 1 } := by
  obtain ⟨hpc, hpend, hidle, hacks⟩ := h.of_owed ho
  unfold Link at h ⊢
  simp only [hpc] at h ⊢
  rcases h with ⟨-, -, -, hno⟩ | ⟨-, -, hreqs, -⟩
  · exact absurd ho hno
  · exact Or.inr ⟨hpend, hidle, hreqs, Or.inr ⟨not_false, by rw [hacks]⟩⟩

theorem Link.congr {owed' : Prop} (h : Link pend owed w p) (ho : owed ↔ owed') :
    Link pend owed' w p := by
  rwa [propext ho] at h

/-- The link reads the pending messages, not the socket. -/
theorem Link.setOut (h : Link pend owed w p) (out : List ControlMsg) :
    Link pend owed w { p with out := out } :=
  h

/-- A child right after `fork` fits a fresh entry. -/
theorem link_fresh (pid : ℤ) (ho : ¬owed) : Link [] owed (Worker.fresh pid) (Proc.fresh pid) :=
  ⟨rfl, rfl, rfl, rfl, ho⟩

end Link

/-! ## Processes -/

section Procs

variable {procs : List Proc} {k j : ℕ} {p p' q : Proc}

theorem running_set (hk : Running procs k p) :
    Running (procs.set k p') j q ↔
      j = k ∧ q = p' ∧ p'.status = .running ∨ j ≠ k ∧ Running procs j q := by
  have hlt : k < procs.length := (List.getElem?_eq_some_iff.1 hk.1).1
  unfold Running
  rw [List.getElem?_set]
  by_cases hjk : k = j
  · subst hjk
    simp only [if_true, hlt, Option.some.injEq, true_and, ne_eq, not_true_eq_false, false_and,
      or_false]
    constructor
    · rintro ⟨rfl, hst⟩
      exact ⟨rfl, hst⟩
    · rintro ⟨rfl, hst⟩
      exact ⟨rfl, hst⟩
  · simp [hjk, Ne.symm hjk]

theorem updateProc_eq_set {f : Proc → Proc} (hk : procs[k]? = some p) :
    updateProc procs k f = procs.set k (f p) := by
  simp [updateProc, hk]

/-- The address made from a pid leads to the running process with that pid. -/
theorem findProc_eq (hk : Running procs k p)
    (hu : ∀ j q, Running procs j q → q.pid = p.pid → j = k) : findProc procs p.pid = some k := by
  obtain ⟨hlt, hget⟩ := List.getElem?_eq_some_iff.1 hk.1
  refine List.findIdx?_eq_some_iff_getElem.2 ⟨hlt, by simp [hget, hk.2], ?_⟩
  intro j hj hc
  simp only [Bool.and_eq_true, beq_iff_eq] at hc
  have := hu j _ ⟨List.getElem?_eq_getElem (by omega), hc.2⟩ hc.1
  omega

theorem killProc_eq (hk : Running procs k p)
    (hu : ∀ j q, Running procs j q → q.pid = p.pid → j = k) :
    killProc procs p.pid = procs.set k { p with status := .killed } := by
  unfold killProc
  rw [findProc_eq hk hu]
  exact updateProc_eq_set hk.1

theorem running_append_fresh {pid : ℤ} : Running (procs ++ [Proc.fresh pid]) j q ↔
    Running procs j q ∨ j = procs.length ∧ q = Proc.fresh pid := by
  unfold Running
  rw [List.getElem?_append]
  by_cases hj : j < procs.length
  · simp [hj, Nat.ne_of_lt hj]
  · rw [if_neg hj, List.getElem?_eq_none (by omega : procs.length ≤ j)]
    simp only [reduceCtorEq, false_and, false_or]
    constructor
    · rintro ⟨hget, -⟩
      have hlen := (List.getElem?_eq_some_iff.1 hget).1
      simp only [List.length_singleton] at hlen
      obtain rfl : j = procs.length := by omega
      exact ⟨rfl, by simpa using hget.symm⟩
    · rintro ⟨rfl, rfl⟩
      exact ⟨by simp, rfl⟩

end Procs

/-! ## Steps of the workers -/

section Steps

variable {cfg : Config} {s s' : Sys} {l : List (ℕ × Worker)}

/-- Replacing a running process by another with the same pid keeps the rest of the match. -/
theorem Live.setProc {k : ℕ} {p p' : Proc} {pc : MasterPc} (h : Live cfg s l)
    (hk : Running s.procs k p) (hst : p'.status = .running) (hpid : p'.pid = p.pid)
    (hlink : ∀ x ∈ l, x.2.pid = p.pid → Link (s.pc.held k ++ p.out) (s.pc.owed = some x.1) x.2 p →
      Link (pc.held k ++ p'.out) (pc.owed = some x.1) x.2 p')
    (hother : ∀ j q, j ≠ k → Running s.procs j q → ∀ x ∈ l, x.2.pid = q.pid →
      Link (s.pc.held j ++ q.out) (s.pc.owed = some x.1) x.2 q →
      Link (pc.held j ++ q.out) (pc.owed = some x.1) x.2 q)
    (hheld : ∀ d, pc = .handling d → ∃ q, Running (s.procs.set k p') d.src q)
    (howed : ∀ a, pc = .act a → a ≠ .create → ∃ x ∈ l, pc.owed = some x.1)
    (hidle : pc.idleBound cfg s.pool.numIdleWorkers) :
    Live cfg ⟨s.pool, pc, s.procs.set k p'⟩ l where
  rep := h.rep
  proc j q hq := by
    rcases (running_set hk).1 hq with ⟨rfl, rfl, -⟩ | ⟨hjk, hq⟩
    · obtain ⟨x, hx, hxp, hxl⟩ := h.proc j p hk
      exact ⟨x, hx, hxp.trans hpid.symm, hlink x hx hxp hxl⟩
    · obtain ⟨x, hx, hxp, hxl⟩ := h.proc j q hq
      exact ⟨x, hx, hxp, hother j q hjk hq x hx hxp hxl⟩
  entry x hx := by
    obtain ⟨j, q, hq, hqx⟩ := h.entry x hx
    by_cases hjk : j = k
    · subst hjk
      obtain rfl : q = p := Option.some.inj (hq.1.symm.trans hk.1)
      exact ⟨j, p', (running_set hk).2 (Or.inl ⟨rfl, rfl, hst⟩), hpid.trans hqx⟩
    · exact ⟨j, q, (running_set hk).2 (Or.inr ⟨hjk, hq⟩), hqx⟩
  unique i j q q' hq hq' hqq := by
    rcases (running_set hk).1 hq with ⟨rfl, rfl, -⟩ | ⟨-, hq₁⟩ <;>
      rcases (running_set hk).1 hq' with ⟨rfl, rfl, -⟩ | ⟨-, hq₂⟩
    · rfl
    · exact h.unique i j p q' hk hq₂ (hpid.symm.trans hqq)
    · exact h.unique i j q p hq₁ hk (hqq.trans hpid)
    · exact h.unique i j q q' hq₁ hq₂ hqq
  held := hheld
  owed := howed
  idle := hidle

/-- The entry and the process with one pid are linked. -/
theorem Live.link (h : Live cfg s l) {x : ℕ × Worker} (hx : x ∈ l) {k : ℕ} {p : Proc}
    (hk : Running s.procs k p) (hpid : x.2.pid = p.pid) :
    Link (s.pc.held k ++ p.out) (s.pc.owed = some x.1) x.2 p := by
  obtain ⟨y, hy, hyp, hyl⟩ := h.proc k p hk
  obtain rfl : x = y := List.inj_on_of_nodup_map h.rep.pids hx hy (hpid.trans hyp.symm)
  exact hyl

/-- A running process is the only one with its pid. -/
theorem Live.only (h : Live cfg s l) {k : ℕ} {p : Proc} (hk : Running s.procs k p) (j : ℕ)
    (q : Proc) (hq : Running s.procs j q) (hpid : q.pid = p.pid) : j = k :=
  h.unique j k q p hq hk hpid

theorem ended_set {procs : List Proc} {k : ℕ} {p' : Proc} (h : Ended procs)
    (hp' : p'.status ≠ .running → p'.status = .killed ∧ p'.pc = .recvAck ∧ p'.out = []) :
    Ended (procs.set k p') := by
  intro j q hq hst
  rw [List.getElem?_set] at hq
  split at hq
  · split at hq
    · cases hq
      exact hp' hst
    · cases hq
  · exact h j q hq hst

theorem inv_worker (hi : Inv cfg s) {k : ℕ} (hs : step cfg s (.worker k true) = some s') :
    Inv cfg s' := by
  cases moves_of_step hs with
  | worker hp hst hw =>
    rename_i p p'
    obtain ⟨hpid, hst'⟩ := startWorker_eq hw
    rw [hst] at hst'
    have hk : Running s.procs k p := ⟨hp, hst⟩
    refine ⟨ended_set hi.ended fun hne => absurd hst' hne, fun hd => ?_⟩
    obtain ⟨l, hl⟩ := hi.live hd
    refine ⟨l, hl.setProc hk hst' hpid (fun x _ _ hx => hx.startWorker hw)
      (fun _ _ _ _ _ _ _ hx => hx) (fun d hpc => ?_) hl.owed hl.idle⟩
    obtain ⟨q, hq⟩ := hl.held d hpc
    by_cases hdk : d.src = k
    · exact ⟨p', (running_set hk).2 (Or.inl ⟨hdk, rfl, hst'⟩)⟩
    · exact ⟨q, (running_set hk).2 (Or.inr ⟨hdk, hq⟩)⟩

/-- Receiving moves the oldest datagram from the socket to the master. -/
theorem inv_recv (hi : Inv cfg s) {k : ℕ} (hs : step cfg s (.recv k) = some s') : Inv cfg s' := by
  cases moves_of_step hs with
  | recv hpc hp hout =>
    rename_i p m out
    obtain ⟨l, hl⟩ := hi.live (by simp [hpc])
    have hst : p.status = .running := by
      by_contra hne
      have := (hi.ended k p hp hne).2.2
      simp [hout] at this
    have hk : Running s.procs k p := ⟨hp, hst⟩
    have hidle := hl.idle
    rw [hpc] at hidle
    refine ⟨ended_set hi.ended fun hne => absurd hst hne, fun _ => ⟨l, hl.setProc hk hst rfl
      (fun x _ _ hx => ?_) (fun j q hjk _ x _ _ hx => ?_) (fun d hd => ?_) (by simp) hidle⟩⟩
    · have hx' : Link (m :: out) False x.2 p := by
        simpa [hpc, hout, MasterPc.held, MasterPc.owed] using hx
      simpa [MasterPc.held, MasterPc.owed] using hx'.setOut out
    · simpa [hpc, MasterPc.held, MasterPc.owed, Ne.symm hjk] using hx
    · cases hd
      exact ⟨_, (running_set hk).2 (Or.inl ⟨rfl, rfl, hst⟩)⟩

/-! ## Steps of the master -/

/-- No other entry has the address of an entry. -/
theorem addr_ne_of_rep {pool : Pool} {l₁ l₂ : List (ℕ × Worker)} {a : ℕ} {w : Worker}
    (h : pool.Rep (l₁ ++ (a, w) :: l₂)) {x : ℕ × Worker} (hx : x ∈ l₁ ++ l₂) : x.1 ≠ a := by
  have hnd := h.list.nodup
  rw [List.map_append, List.map_cons, List.nodup_middle, ← List.map_append] at hnd
  rintro rfl
  exact hnd.notMem (List.mem_map.2 ⟨x, hx, rfl⟩)

/-- An entry with another pid is another entry. -/
theorem mem_of_pid_ne {l₁ l₂ : List (ℕ × Worker)} {a : ℕ} {w : Worker} {x : ℕ × Worker}
    (hx : x ∈ l₁ ++ (a, w) :: l₂) (hne : x.2.pid ≠ w.pid) : x ∈ l₁ ++ l₂ := by
  simp only [List.mem_append, List.mem_cons] at hx ⊢
  rcases hx with hx | rfl | hx
  · exact Or.inl hx
  · exact absurd rfl hne
  · exact Or.inr hx

theorem mem_middle_iff {l₁ l₂ : List (ℕ × Worker)} {y x : ℕ × Worker} :
    x ∈ l₁ ++ y :: l₂ ↔ x = y ∨ x ∈ l₁ ++ l₂ := by
  simp only [List.mem_append, List.mem_cons]
  tauto

theorem Action.held_pc (a : Action) (k : ℕ) : a.pc.held k = [] := by
  cases a <;> rfl

theorem Action.owed_pc (a : Action) : a.pc.owed = a.target := by
  cases a <;> rfl

/-- The match after the master changed the entry of the message it held. -/
theorem Live.setEntry {k : ℕ} {p : Proc} {l₁ l₂ : List (ℕ × Worker)} {a : ℕ} {w w' : Worker}
    {pool : Pool} {act : Action} (h : Live cfg s (l₁ ++ (a, w) :: l₂)) (hk : Running s.procs k p)
    (hpid : w.pid = p.pid) (hw : w'.pid = w.pid) (hrep : pool.Rep (l₁ ++ (a, w') :: l₂))
    (hheld : ∀ j, j ≠ k → s.pc.held j = []) (howed : s.pc.owed = none)
    (htarget : act.target = none ∧ (act = .done ∨ act = .create) ∨ act.target = some a)
    (hlink : Link p.out (act.target = some a) w' p)
    (hidle : act.pc.idleBound cfg pool.numIdleWorkers) :
    Live cfg ⟨pool, act.pc, s.procs⟩ (l₁ ++ (a, w') :: l₂) where
  rep := hrep
  proc j q hq := by
    simp only [Action.held_pc, Action.owed_pc, List.nil_append]
    by_cases hjk : j = k
    · subst hjk
      obtain rfl : q = p := Option.some.inj (hq.1.symm.trans hk.1)
      exact ⟨(a, w'), by simp, hw.trans hpid, hlink⟩
    · obtain ⟨x, hx, hxq, hxl⟩ := h.proc j q hq
      have hne : x.2.pid ≠ w.pid := fun heq =>
        hjk (h.unique j k q p hq hk (hxq.symm.trans (heq.trans hpid)))
      have hx' := mem_of_pid_ne hx hne
      refine ⟨x, mem_middle_iff.2 (Or.inr hx'), hxq, ?_⟩
      rw [hheld j hjk] at hxl
      refine hxl.congr ?_
      rw [howed]
      have hxa := addr_ne_of_rep h.rep hx'
      rcases htarget with ⟨ho, -⟩ | ho <;> simp [ho, Ne.symm hxa]
  entry x hx := by
    rcases mem_middle_iff.1 hx with rfl | hx
    · obtain ⟨j, q, hq, hqx⟩ := h.entry (a, w) (by simp)
      exact ⟨j, q, hq, hqx.trans hw.symm⟩
    · exact h.entry x (mem_middle_iff.2 (Or.inr hx))
  unique := h.unique
  held d hd := absurd hd (Action.pc_ne_handling act d)
  owed b hb hne := by
    refine ⟨(a, w'), by simp, ?_⟩
    rw [Action.owed_pc]
    rcases htarget with ⟨-, rfl | rfl⟩ | ho
    · cases hb
    · cases hb
      exact absurd rfl hne
    · exact ho
  idle := hidle

/-- Handling a message keeps the match. The message is the oldest of its sender. -/
theorem inv_handle (hi : Inv cfg s) (hs : step cfg s .handle = some s') : Inv cfg s' := by
  cases moves_of_step hs with
  | handleCrash => exact ⟨hi.ended, fun hd => absurd rfl hd⟩
  | handle hpc hm =>
    rename_i d pool act
    obtain ⟨l, hl⟩ := hi.live (by simp [hpc])
    obtain ⟨p, hk⟩ := hl.held d hpc
    obtain ⟨⟨a, w⟩, hx, hxp, hxl⟩ := hl.proc d.src p hk
    obtain ⟨l₁, l₂, rfl⟩ := List.append_of_mem hx
    have hmsg : Link (d.msg :: p.out) False w p := by
      simpa [hpc, MasterPc.held, MasterPc.owed] using hxl
    have hheld : ∀ j, j ≠ d.src → s.pc.held j = [] := fun j hj => by
      simp [hpc, MasterPc.held, Ne.symm hj]
    have howed : s.pc.owed = none := by rw [hpc]; rfl
    have hbound := hl.idle
    simp only [hpc, MasterPc.idleBound] at hbound
    obtain ⟨hpid, ⟨htype, hidle, hlink⟩ | ⟨htype, hidle, hlink⟩⟩ := hmsg.handleMsg hxp
    · have hd : d.msg = ⟨gotRequest, w.pid, d.msg.reqsHandled⟩ := by rw [← htype, ← hpid]
      obtain ⟨pool', heq, hrep, hcount⟩ :=
        Pool.handleControlMsg_got cfg hl.rep hidle d.msg.reqsHandled
      rw [hd, heq] at hm
      cases hm
      have hsame : ({ w with isIdle := 0 } : Worker).pid = w.pid := rfl
      refine ⟨hi.ended, fun _ => ⟨_, hl.setEntry hk hxp hsame hrep
        hheld howed (Or.inl ?_) ?_ ?_⟩⟩
      · split <;> simp [Action.target]
      · exact hlink.congr (by split <;> simp [Action.target])
      · split <;> simp only [Action.pc, MasterPc.idleBound] <;> omega
    · have hd : d.msg = ⟨completedRequest, w.pid, d.msg.reqsHandled⟩ := by rw [← htype, ← hpid]
      obtain ⟨pool', heq, hrep, hcount⟩ :=
        Pool.handleControlMsg_completed cfg hl.rep hidle d.msg.reqsHandled
      rw [hd, heq] at hm
      cases hm
      have hsame : ({ w with isIdle := 1, reqsHandled := d.msg.reqsHandled } : Worker).pid = w.pid :=
        rfl
      refine ⟨hi.ended, fun _ => ⟨_, hl.setEntry hk hxp hsame hrep
        hheld howed (Or.inr ?_) ?_ ?_⟩⟩
      · split_ifs <;> rfl
      · exact hlink.congr (by split_ifs <;> simp [Action.target])
      · split_ifs <;> simp only [Action.pc, MasterPc.idleBound] <;> omega

/-- A fork adds a fresh entry and a fresh process. -/
theorem Live.fork {pid : ℤ} {a : ℕ} {pc : MasterPc} {pool : Pool} (h : Live cfg s l)
    (hpid : ∀ x ∈ l, x.2.pid ≠ pid) (hrep : pool.Rep ((a, Worker.fresh pid) :: l))
    (hheld : ∀ j, s.pc.held j = []) (howed : s.pc.owed = none) (hheld' : ∀ j, pc.held j = [])
    (howed' : pc.owed = none) (hact : ∀ b, pc ≠ .act b) (hhandling : ∀ d, pc ≠ .handling d)
    (hidle : pc.idleBound cfg pool.numIdleWorkers) :
    Live cfg ⟨pool, pc, s.procs ++ [Proc.fresh pid]⟩ ((a, Worker.fresh pid) :: l) where
  rep := hrep
  proc j q hq := by
    simp only [hheld' j, howed', List.nil_append]
    rcases running_append_fresh.1 hq with hq | ⟨rfl, rfl⟩
    · obtain ⟨x, hx, hxq, hxl⟩ := h.proc j q hq
      rw [hheld j, howed] at hxl
      exact ⟨x, List.mem_cons_of_mem _ hx, hxq, hxl⟩
    · exact ⟨_, List.mem_cons_self, rfl, link_fresh pid (by simp)⟩
  entry x hx := by
    rcases List.mem_cons.1 hx with rfl | hx
    · exact ⟨_, _, running_append_fresh.2 (Or.inr ⟨rfl, rfl⟩), rfl⟩
    · obtain ⟨j, q, hq, hqx⟩ := h.entry x hx
      exact ⟨j, q, running_append_fresh.2 (Or.inl hq), hqx⟩
  unique i j q q' hq hq' hqq := by
    have hnew : ∀ i q, Running s.procs i q → q.pid ≠ pid := fun i q hq heq => by
      obtain ⟨x, hx, hxq, -⟩ := h.proc i q hq
      exact hpid x hx (hxq.trans heq)
    rcases running_append_fresh.1 hq with hq₁ | ⟨rfl, rfl⟩ <;>
      rcases running_append_fresh.1 hq' with hq₂ | ⟨rfl, rfl⟩
    · exact h.unique i j q q' hq₁ hq₂ hqq
    · exact absurd hqq (hnew i q hq₁)
    · exact absurd hqq.symm (hnew j q' hq₂)
    · rfl
  held d hd := absurd hd (hhandling d)
  owed b hb := absurd hb (hact b)
  idle := hidle

theorem ended_append_fresh {procs : List Proc} {pid : ℤ} (h : Ended procs) :
    Ended (procs ++ [Proc.fresh pid]) := by
  intro j q hq hst
  rw [List.getElem?_append] at hq
  split at hq
  · exact h j q hq hst
  · obtain ⟨hlt, hget⟩ := List.getElem?_eq_some_iff.1 hq
    simp only [List.getElem_singleton] at hget
    rw [← hget] at hst
    exact absurd rfl hst

theorem inv_fork (hi : Inv cfg s) {pid : ℤ} {a : ℕ} (hs : step cfg s (.fork pid a) = some s') :
    Inv cfg s' := by
  cases moves_of_step hs with
  | fork hpc hpid hnull hadd =>
    rename_i pc pool
    have hne : s.pc ≠ .dead := by
      intro hd
      simp [hd, afterFork] at hpc
    obtain ⟨l, hl⟩ := hi.live hne
    have hfree := (Pool.getWorkerById_eq_null hl.rep).1 hnull
    have hrep := Pool.rep_of_addWorker hl.rep hfree hadd
    have hcount := (Pool.counters_addWorker hadd).2
    have hidle := hl.idle
    refine ⟨ended_append_fresh hi.ended, fun _ => ⟨(a, Worker.fresh pid) :: l, ?_⟩⟩
    rcases afterFork_eq_some hpc with ⟨n, i, hspc, -, rfl⟩ | ⟨hspc, rfl⟩
    · exact hl.fork hfree hrep (fun j => by rw [hspc]; rfl) (by rw [hspc]; rfl)
        (fun _ => rfl) rfl (by simp) (by simp) trivial
    · rw [hspc] at hidle
      refine hl.fork hfree hrep (fun j => by rw [hspc]; rfl) (by rw [hspc]; rfl)
        (fun _ => rfl) rfl (by simp) (by simp) ?_
      simp only [MasterPc.idleBound] at hidle ⊢
      omega

theorem inv_spawnCheck (hi : Inv cfg s) (hs : step cfg s .spawnCheck = some s') :
    Inv cfg s' := by
  cases moves_of_step hs with
  | spawnCheck hpc hin =>
    obtain ⟨l, hl⟩ := hi.live (by simp [hpc])
    have hproc := hl.proc
    simp only [hpc] at hproc
    unfold afterSpawn
    split_ifs with hmin
    · exact ⟨hi.ended, fun _ => ⟨l, hl.rep, hproc, hl.entry, hl.unique, by simp, by simp, hmin⟩⟩
    · exact ⟨hi.ended, fun _ => ⟨l, hl.rep, hproc, hl.entry, hl.unique, by simp [exponentialSpawn],
        by simp [exponentialSpawn], trivial⟩⟩

/-- The worker of the entry the master is about to kill or to answer. -/
theorem Live.target (h : Live cfg s l) {act : Action} {wk : Option ℕ} (hpc : s.pc = .act act)
    (hact : act.target = wk) (hne : act ≠ .create) :
    ∃ a w l₁ l₂ k p, wk = some a ∧ l = l₁ ++ (a, w) :: l₂ ∧ Running s.procs k p ∧
      p.pid = w.pid ∧ s.pool.heap.load wk = some ⟨w, firstPtr l₂ none, lastPtr none l₁⟩ ∧
      Link p.out True w p ∧ p.pc = .recvAck ∧ p.out = [] ∧ w.isIdle = 1 ∧ p.acks = 0 := by
  obtain ⟨⟨a, w⟩, hx, ho⟩ := h.owed act hpc hne
  obtain ⟨k, p, hk, hpid⟩ := h.entry (a, w) hx
  have hlink := h.link hx hk hpid.symm
  obtain ⟨l₁, l₂, rfl⟩ := List.append_of_mem hx
  have howed : act.target = some a := by simpa [hpc, MasterPc.owed] using ho
  have hwk : wk = some a := hact.symm.trans howed
  have hl : Link p.out True w p := by
    simpa [hpc, MasterPc.held, MasterPc.owed, howed] using hlink
  obtain ⟨hrecv, hout, hidle, hacks⟩ := hl.of_owed trivial
  refine ⟨a, w, l₁, l₂, k, p, hwk, rfl, hk, hpid, ?_, hl, hrecv, hout, hidle, hacks⟩
  rw [hwk]
  exact (dseg_append.1 h.rep.list.seg).2.1

/-- Killing a worker takes out its entry and its process. -/
theorem Live.kill {k : ℕ} {p : Proc} {l₁ l₂ : List (ℕ × Worker)} {a : ℕ} {w : Worker}
    {pool : Pool} {pc : MasterPc} (h : Live cfg s (l₁ ++ (a, w) :: l₂)) (hk : Running s.procs k p)
    (hpid : p.pid = w.pid) (hrep : pool.Rep (l₁ ++ l₂)) (hheld : ∀ j, s.pc.held j = [])
    (howed : s.pc.owed = some a) (hpc : pc = .recv ∨ pc = .act .create)
    (hidle : pc.idleBound cfg pool.numIdleWorkers) :
    Live cfg ⟨pool, pc, s.procs.set k { p with status := .killed }⟩ (l₁ ++ l₂) := by
  have hrun : ∀ j q, Running (s.procs.set k { p with status := .killed }) j q →
      j ≠ k ∧ Running s.procs j q := fun j q hq => by
    rcases (running_set hk).1 hq with ⟨-, -, hst⟩ | hq
    · cases hst
    · exact hq
  refine ⟨hrep, fun j q hq => ?_, fun x hx => ?_, fun i j q q' hq hq' => ?_, fun d hd => ?_,
    fun b hb hne => ?_, hidle⟩
  · obtain ⟨hjk, hq⟩ := hrun j q hq
    obtain ⟨x, hx, hxq, hxl⟩ := h.proc j q hq
    have hne : x.2.pid ≠ w.pid := fun heq =>
      hjk (h.unique j k q p hq hk (hxq.symm.trans (heq.trans hpid.symm)))
    have hx' := mem_of_pid_ne hx hne
    have hxa := addr_ne_of_rep h.rep hx'
    refine ⟨x, hx', hxq, ?_⟩
    rw [hheld j, howed] at hxl
    have hfree : Link q.out False x.2 q := hxl.congr (by simp [Ne.symm hxa])
    rcases hpc with rfl | rfl <;> exact hfree.congr (by simp [MasterPc.owed, Action.target])
  · obtain ⟨j, q, hq, hqx⟩ := h.entry x (mem_middle_iff.2 (Or.inr hx))
    refine ⟨j, q, (running_set hk).2 (Or.inr ⟨?_, hq⟩), hqx⟩
    rintro rfl
    obtain rfl : q = p := Option.some.inj (hq.1.symm.trans hk.1)
    refine addr_ne_of_rep h.rep hx ?_
    have hxw := List.inj_on_of_nodup_map h.rep.pids (mem_middle_iff.2 (Or.inr hx))
      (mem_middle_iff.2 (Or.inl rfl)) (hqx.symm.trans hpid)
    rw [hxw]
  · exact h.unique i j q q' (hrun i q hq).2 (hrun j q' hq').2
  · rcases hpc with rfl | rfl <;> cases hd
  · rcases hpc with rfl | rfl <;> cases hb
    exact absurd rfl hne

theorem inv_kill (hi : Inv cfg s) (hs : step cfg s .kill = some s') : Inv cfg s' := by
  obtain ⟨wk, thenCreate, hpc⟩ : ∃ wk thenCreate, s.pc = .act (.remove wk thenCreate) := by
    cases moves_of_step hs with
    | killNull hpc | kill hpc | killCrash hpc => exact ⟨_, _, hpc⟩
  obtain ⟨l, hl⟩ := hi.live (by simp [hpc])
  obtain ⟨a, w, l₁, l₂, k, p, rfl, rfl, hk, hpid, hload, -, hrecv, hout, hidle, -⟩ :=
    hl.target hpc (show Action.target (.remove wk thenCreate) = wk from rfl) (by simp)
  have hended : Ended (s.procs.set k { p with status := .killed }) :=
    ended_set hi.ended fun _ => ⟨rfl, hrecv, hout⟩
  cases moves_of_step hs with
  | killNull hnull =>
    rw [hpc] at hnull
    cases hnull
  | killCrash hpc' hprocs =>
    rw [hpc] at hpc'
    cases hpc'
    refine ⟨?_, fun hd => absurd rfl hd⟩
    rcases hprocs with rfl | ⟨n, hload', rfl⟩
    · exact hi.ended
    · obtain rfl := Option.some.inj (hload.symm.trans hload')
      simp only [← hpid, killProc_eq hk (hl.only hk)]
      exact hended
  | kill hpc' hload' hrem =>
    rename_i pool
    rw [hpc] at hpc'
    cases hpc'
    obtain rfl := Option.some.inj (hload.symm.trans hload')
    have hrep := Pool.rep_of_removeWorker hl.rep hidle hrem
    have hcount := (Pool.counters_removeWorker hrem).2
    have hbound := hl.idle
    rw [hpc] at hbound
    simp only [MasterPc.idleBound] at hbound
    simp only [← hpid, killProc_eq hk (hl.only hk)]
    refine ⟨hended, fun _ => ⟨l₁ ++ l₂, hl.kill hk hpid hrep (fun j => by rw [hpc]; rfl)
      (by rw [hpc]; rfl) ?_ ?_⟩⟩
    · cases thenCreate <;> simp [afterKill]
    · cases thenCreate <;> simp only [afterKill, Bool.false_eq_true, if_true, if_false,
        MasterPc.idleBound] <;> omega

theorem inv_ack (hi : Inv cfg s) (hs : step cfg s .ack = some s') : Inv cfg s' := by
  cases moves_of_step hs with
  | ackFail => exact ⟨hi.ended, fun hd => absurd rfl hd⟩
  | ack hpc hload' hfind =>
    rename_i wk n j
    obtain ⟨l, hl⟩ := hi.live (by simp [hpc])
    obtain ⟨a, w, l₁, l₂, k, p, rfl, rfl, hk, hpid, hload, hlink, -⟩ :=
      hl.target hpc (show Action.target (.ack wk) = wk from rfl) (by simp)
    obtain rfl := Option.some.inj (hload.symm.trans hload')
    rw [← hpid, findProc_eq hk (hl.only hk)] at hfind
    obtain rfl := Option.some.inj hfind
    rw [updateProc_eq_set hk.1]
    have hbound := hl.idle
    rw [hpc] at hbound
    simp only [MasterPc.idleBound] at hbound
    refine ⟨ended_set hi.ended fun hne => absurd hk.2 hne, fun _ => ⟨_, hl.setProc hk hk.2 rfl
      (fun x hx hxp _ => ?_) (fun j q hjk hq x hx hxq hxl => ?_) (by simp) (by simp) ?_⟩⟩
    · obtain rfl : x = (a, w) :=
        List.inj_on_of_nodup_map hl.rep.pids hx (by simp) (hxp.trans hpid)
      simpa [MasterPc.held, MasterPc.owed] using hlink.ack trivial
    · have hne : x.2.pid ≠ w.pid := fun heq =>
        hjk (hl.unique j k q p hq hk (hxq.symm.trans (heq.trans hpid.symm)))
      have hxa := addr_ne_of_rep hl.rep (mem_of_pid_ne hx hne)
      rw [hpc] at hxl
      simpa [MasterPc.held, MasterPc.owed, Action.target, Ne.symm hxa] using hxl
    · simp only [MasterPc.idleBound]
      omega

/-- One step with no failed system call keeps the invariant. -/
theorem inv_step {lb : Label} (hi : Inv cfg s) (hok : lb.succeeds = true)
    (hs : step cfg s lb = some s') : Inv cfg s' := by
  cases lb with
  | worker k ok =>
    cases ok with
    | true => exact inv_worker hi hs
    | false => cases hok
  | recv k => exact inv_recv hi hs
  | handle => exact inv_handle hi hs
  | fork pid a => exact inv_fork hi hs
  | forkFail a => cases hok
  | spawnCheck => exact inv_spawnCheck hi hs
  | kill => exact inv_kill hi hs
  | ack => exact inv_ack hi hs

end Steps

theorem inv_init (cfg : Config) : Inv cfg init where
  ended k p hp := by simp [init] at hp
  live _ := ⟨[], Pool.rep_empty, fun k p hp => by simp [init, Running] at hp, by simp,
    fun k _ p _ hp => by simp [init, Running] at hp, by simp [init, exponentialSpawn],
    by simp [init, exponentialSpawn], trivial⟩

/-- The invariant holds in every state reached with no failed system call. -/
theorem reachable_inv {cfg : Config} {s : Sys} (h : Reachable cfg s) : Inv cfg s := by
  obtain ⟨ls, hls, hr⟩ := h
  exact run_invariant (c := fun _ lb => lb.succeeds = true) (fun _ _ _ hi hc hs => inv_step hi hc hs)
    (inv_init cfg) (stepsMeet_of_forall (fun lb hlb _ => hls lb hlb) init) hr

/-! ## Results -/

/-- What a message that is handled and a worker that is killed look like. -/
structure ProtocolSafe (s : Sys) : Prop where
  /-- The message that is handled next names an entry, whose flag fits the message, and
  its sender is still running. -/
  handled : ∀ d, s.pc = .handling d → ∃ a n, s.pool.getWorkerById d.msg.pid = some (some a) ∧
    s.pool.heap.cells a = some n ∧ n.data.pid = d.msg.pid ∧
    (d.msg.type = gotRequest ∧ n.data.isIdle = 1 ∨
      d.msg.type = completedRequest ∧ n.data.isIdle = 0) ∧
    ∃ p, Running s.procs d.src p ∧ p.pid = d.msg.pid
  /-- The worker that is killed next is the only process with its pid. It waits for
  `READ_ALLOWED`, and has no connection and no message on its way. -/
  killed : ∀ wk thenCreate, s.pc = .act (.remove wk thenCreate) → ∃ a n k p, wk = some a ∧
    s.pool.heap.cells a = some n ∧ Running s.procs k p ∧ p.pid = n.data.pid ∧
    (∀ j q, Running s.procs j q → q.pid = n.data.pid → j = k) ∧
    p.pc = .recvAck ∧ p.acks = 0 ∧ p.holdsConnection = false ∧ p.out = []
  /-- A worker that was removed had no connection, and left no message behind. -/
  removed : ∀ (k : ℕ) (p : Proc), s.procs[k]? = some p → p.status ≠ .running →
    p.status = .killed ∧ p.holdsConnection = false ∧ p.out = []

theorem holdsConnection_of_recvAck {p : Proc} (h : p.pc = .recvAck) :
    p.holdsConnection = false := by
  simp [Proc.holdsConnection, h]

/-- Safety of the protocol, for every run and every interleaving. -/
theorem protocol_safety {cfg : Config} {s : Sys} (h : Reachable cfg s) : ProtocolSafe s where
  handled d hpc := by
    obtain ⟨l, hl⟩ := (reachable_inv h).live (by simp [hpc])
    obtain ⟨p, hk⟩ := hl.held d hpc
    obtain ⟨⟨a, w⟩, hx, hxp, hxl⟩ := hl.proc d.src p hk
    obtain ⟨l₁, l₂, rfl⟩ := List.append_of_mem hx
    have hmsg : Link (d.msg :: p.out) False w p := by
      simpa [hpc, MasterPc.held, MasterPc.owed] using hxl
    obtain ⟨hpid, hfit⟩ := hmsg.handleMsg hxp
    refine ⟨a, _, ?_, (dseg_append.1 hl.rep.list.seg).2.1, hpid.symm, ?_, p, hk,
      (hpid.trans hxp).symm⟩
    · rw [hpid]
      exact Pool.getWorkerById_of_mem hl.rep
    · exact hfit.imp (fun hf => ⟨hf.1, hf.2.1⟩) fun hf => ⟨hf.1, hf.2.1⟩
  killed wk thenCreate hpc := by
    obtain ⟨l, hl⟩ := (reachable_inv h).live (by simp [hpc])
    obtain ⟨a, w, l₁, l₂, k, p, rfl, rfl, hk, hpid, hload, -, hrecv, hout, -, hacks⟩ :=
      hl.target hpc (show Action.target (.remove wk thenCreate) = wk from rfl) (by simp)
    exact ⟨a, _, k, p, rfl, hload, hk, hpid, fun j q hq hqp => hl.only hk j q hq (hqp.trans hpid.symm),
      hrecv, hacks, holdsConnection_of_recvAck hrecv, hout⟩
  removed k p hp hst := by
    obtain ⟨hkilled, hpc, hout⟩ := (reachable_inv h).ended k p hp hst
    exact ⟨hkilled, holdsConnection_of_recvAck hpc, hout⟩

/-- Two workers, one of which served a request and is about to be removed. -/
theorem protocol_safety_removing : ∃ s, run (step ⟨1, 1, 5⟩) init
    [.fork 100 0, .spawnCheck, .worker 0 true, .worker 0 true, .worker 0 true, .recv 0, .handle,
      .fork 101 1, .worker 0 true, .worker 0 true, .worker 0 true, .worker 0 true, .recv 0,
      .handle] = some s ∧ s.pc = .act (.remove (some 0) false) ∧ ProtocolSafe s := by
  obtain ⟨s, hs, hpc⟩ := Option.map_eq_some_iff.1 (show (run (step ⟨1, 1, 5⟩) init
    [.fork 100 0, .spawnCheck, .worker 0 true, .worker 0 true, .worker 0 true, .recv 0, .handle,
      .fork 101 1, .worker 0 true, .worker 0 true, .worker 0 true, .worker 0 true, .recv 0,
      .handle]).map Sys.pc = some (.act (.remove (some 0) false)) by decide)
  exact ⟨s, hs, hpc, protocol_safety ⟨_, by decide, hs⟩⟩

/-- The list is well formed, the counters are right, and enough workers are idle. -/
def PoolAccounting (cfg : Config) (p : Pool) : Prop :=
  ∃ l : List (ℕ × Worker), DList p.heap p.head l ∧ (l.map fun x => x.2.pid).Nodup ∧
    p.numWorkers = l.length ∧ p.numIdleWorkers = l.countP (fun x => x.2.isIdle == 1) ∧
    cfg.minSpareServers ≤ p.numIdleWorkers

/-- The pool whenever the master waits for the next message. -/
theorem pool_accounting {cfg : Config} {s : Sys} (h : Reachable cfg s) (hpc : s.pc = .recv) :
    PoolAccounting cfg s.pool := by
  obtain ⟨l, hl⟩ := (reachable_inv h).live (by simp [hpc])
  have hidle := hl.idle
  rw [hpc] at hidle
  exact ⟨l, hl.rep.list, hl.rep.pids, hl.rep.workers, hl.rep.idle, hidle⟩

/-- After a removal and a fork in the same branch. -/
theorem pool_accounting_replaced : ∃ s, run (step ⟨1, 2, 1⟩) init
    [.fork 100 0, .spawnCheck, .worker 0 true, .worker 0 true, .worker 0 true, .recv 0, .handle,
      .fork 101 1, .worker 0 true, .worker 0 true, .worker 0 true, .worker 0 true, .recv 0,
      .handle, .kill, .fork 100 0] = some s ∧ s.pool.numWorkers = 2 ∧
    PoolAccounting ⟨1, 2, 1⟩ s.pool := by
  obtain ⟨s, hs, hpc⟩ := Option.map_eq_some_iff.1 (show (run (step ⟨1, 2, 1⟩) init
    [.fork 100 0, .spawnCheck, .worker 0 true, .worker 0 true, .worker 0 true, .recv 0, .handle,
      .fork 101 1, .worker 0 true, .worker 0 true, .worker 0 true, .worker 0 true, .recv 0,
      .handle, .kill, .fork 100 0]).map (fun s => (s.pc, s.pool.numWorkers)) =
    some (.recv, 2) by decide)
  simp only [Prod.mk.injEq] at hpc
  exact ⟨s, hs, hpc.2, pool_accounting ⟨_, by decide, hs⟩ hpc.1⟩

end NetProg.Prefork
