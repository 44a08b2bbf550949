import NetProg.Lib.DList

/-!
# The worker pool of the prefork server

The master keeps one `struct Workers` per child in a doubly linked list from `head`, and
counts the entries in `num_workers` and the idle ones in `num_idle_workers`.
`getWorkerById`, `addWorker`, `removeWorker` and `handleControlMsg` are the functions of
`prefork_server.c` over that list. They fail where the C code would follow a pointer that
is NULL or freed. `handleControlMsg` stops at the system call that ends each branch and
returns it as an `Action`.

`Pool.Rep p l` says that the list of `p` holds the entries `l`, with no repeated pid, and
that both counters are right. Every function has one lemma that says what it does to `l`.
`removeWorker_alone` is the one invalid access : the only entry of the list is removed.
-/

namespace NetProg.Prefork

/-- `struct Workers` without its links. `reqs_handled` is the number of requests. It is an `int`
in the source, which wraps around, so that it is compared modulo `2 ^ 32`. -/
structure Worker where
  pid : ℤ
  reqsHandled : ℤ
  isIdle : ℤ
  toHarvest : ℤ
deriving DecidableEq, Repr

/-- The fields `add_worker` gives a new entry. -/
def Worker.fresh (pid : ℤ) : Worker :=
  ⟨pid, 0, 1, 0⟩

/-- `struct ControlMsgs`. -/
structure ControlMsg where
  type : ℤ
  pid : ℤ
  reqsHandled : ℤ
deriving DecidableEq, Repr

/-- `GOT_REQUEST`. -/
def gotRequest : ℤ := 1

/-- `COMPLETED_REQUEST`. -/
def completedRequest : ℤ := 2

/-- The command line of the server. -/
structure Config where
  minSpareServers : ℤ
  maxSpareServers : ℤ
  maxRequestsPerChild : ℤ
deriving DecidableEq, Repr

/-- The globals `head`, `num_idle_workers` and `num_workers`, with the heap. -/
structure Pool where
  heap : Heap Worker
  head : Option ℕ
  numIdleWorkers : ℤ
  numWorkers : ℤ

/-- The pool before the first fork. -/
def Pool.empty : Pool :=
  ⟨Heap.empty, none, 0, 0⟩

/-- The system call at which a branch of `handle_control_msg` ends. -/
inductive Action where
  | done
  | create
  | remove (wk : Option ℕ) (thenCreate : Bool)
  | ack (wk : Option ℕ)
deriving DecidableEq, Repr

namespace Pool

/-- `get_worker_by_id` : the entry with the given pid, or NULL. -/
def getWorkerById (p : Pool) (pid : ℤ) : Option (Option ℕ) :=
  p.heap.search (fun w => w.pid == pid) p.heap.bound p.head

/-- `add_worker`, where `malloc` returns the block `a`. -/
def addWorker (p : Pool) (pid : ℤ) (a : ℕ) : Option Pool := do
  let heap ← p.heap.alloc a ⟨Worker.fresh pid, none, none⟩
  let p := { p with
    heap := heap
    numIdleWorkers := p.numIdleWorkers + 1
    numWorkers := p.numWorkers + 1 }
  if p.head = none then
    return { p with head := some a }
  else
    let heap ← p.heap.modify (some a) fun n => { n with next := p.head }
    let heap ← heap.modify p.head fun n => { n with prev := some a }
    return { p with heap := heap, head := some a }

/-- `remove_worker` on the list. The kill of the process is a step of the system. -/
def removeWorker (p : Pool) : Option ℕ → Option Pool
  | none => some p
  | some a => do
    let p := { p with
      numWorkers := p.numWorkers - 1
      numIdleWorkers := p.numIdleWorkers - 1 }
    let wk ← p.heap.load (some a)
    let hd ← p.heap.load p.head
    if wk.data.pid = hd.data.pid then
      -- `head->prev = NULL` has no test that the new head is not NULL
      let heap ← p.heap.modify wk.next fun n => { n with prev := none }
      let heap ← heap.free (some a)
      return { p with heap := heap, head := wk.next }
    else
      let heap ← p.heap.modify wk.prev fun n => { n with next := wk.next }
      let wk ← heap.load (some a)
      let heap ← if wk.next ≠ none then
          heap.modify wk.next fun n => { n with prev := wk.prev }
        else some heap
      let heap ← heap.free (some a)
      return { p with heap := heap }

/-- `handle_control_msg` up to the system call that ends the branch. -/
def handleControlMsg (cfg : Config) (p : Pool) (cmsg : ControlMsg) : Option (Pool × Action) :=
  if cmsg.type = gotRequest then do
    let wk ← p.getWorkerById cmsg.pid
    let heap ← p.heap.modify wk fun n => { n with data := { n.data with isIdle := 0 } }
    let p := { p with heap := heap, numIdleWorkers := p.numIdleWorkers - 1 }
    return (p, if p.numIdleWorkers < cfg.minSpareServers then .create else .done)
  else if cmsg.type = completedRequest then do
    let wk ← p.getWorkerById cmsg.pid
    let heap ← p.heap.modify wk fun n =>
      { n with data := { n.data with isIdle := 1, reqsHandled := cmsg.reqsHandled } }
    let p := { p with heap := heap, numIdleWorkers := p.numIdleWorkers + 1 }
    return (p,
      if p.numIdleWorkers > cfg.maxSpareServers then .remove wk false
      else if cmsg.reqsHandled ≡ cfg.maxRequestsPerChild [ZMOD 2 ^ 32] then .remove wk true
      else .ack wk)
  else some (p, .done)

/-! ## What the pool represents -/

/-- The number of entries with `is_idle = 1`. -/
def idleCount (l : List (ℕ × Worker)) : ℕ :=
  l.countP fun x => x.2.isIdle == 1

theorem idleCount_cons (x : ℕ × Worker) (l : List (ℕ × Worker)) :
    idleCount (x :: l) = idleCount l + if x.2.isIdle = 1 then 1 else 0 := by
  simp [idleCount, List.countP_cons]

theorem idleCount_append (l₁ l₂ : List (ℕ × Worker)) :
    idleCount (l₁ ++ l₂) = idleCount l₁ + idleCount l₂ :=
  List.countP_append

/-- The list of `p` holds the entries `l`, no pid twice, and the counters are right. -/
structure Rep (p : Pool) (l : List (ℕ × Worker)) : Prop where
  list : DList p.heap p.head l
  pids : (l.map fun x => x.2.pid).Nodup
  workers : p.numWorkers = l.length
  idle : p.numIdleWorkers = idleCount l

theorem rep_empty : Rep empty [] :=
  ⟨DList.nil _, List.nodup_nil, rfl, rfl⟩

theorem Rep.idle_bounds {p : Pool} {l : List (ℕ × Worker)} (hp : Rep p l) :
    0 ≤ p.numIdleWorkers ∧ p.numIdleWorkers ≤ p.numWorkers := by
  have hle : idleCount l ≤ l.length := List.countP_le_length
  rw [hp.idle, hp.workers]
  omega

/-- In a list without repeated pids an entry is found by its pid. -/
theorem find?_pid {l₁ l₂ : List (ℕ × Worker)} {a : ℕ} {w : Worker}
    (hnd : ((l₁ ++ (a, w) :: l₂).map fun x => x.2.pid).Nodup) :
    (l₁ ++ (a, w) :: l₂).find? (fun x => x.2.pid == w.pid) = some (a, w) := by
  have hl₁ : l₁.find? (fun x => x.2.pid == w.pid) = none := by
    rw [List.find?_eq_none]
    intro x hx hpid
    rw [List.map_append, List.nodup_append] at hnd
    exact hnd.2.2 x.2.pid (List.mem_map_of_mem (f := fun x : ℕ × Worker => x.2.pid) hx) w.pid
      (by simp) (by simpa using hpid)
  simp [List.find?_append, hl₁]

variable {p : Pool} {l : List (ℕ × Worker)}

theorem getWorkerById_eq (hp : Rep p l) (pid : ℤ) :
    p.getWorkerById pid = some ((l.find? fun x => x.2.pid == pid).map Prod.fst) :=
  hp.list.search_eq _

/-- `get_worker_by_id` finds every entry. -/
theorem getWorkerById_of_mem {l₁ l₂ : List (ℕ × Worker)} {a : ℕ} {w : Worker}
    (hp : Rep p (l₁ ++ (a, w) :: l₂)) : p.getWorkerById w.pid = some (some a) := by
  rw [getWorkerById_eq hp, find?_pid hp.pids]
  rfl

/-- `get_worker_by_id` returns NULL on every other pid. -/
theorem getWorkerById_eq_null (hp : Rep p l) {pid : ℤ} :
    p.getWorkerById pid = some none ↔ ∀ x ∈ l, x.2.pid ≠ pid := by
  rw [getWorkerById_eq hp]
  simp

/-- `add_worker` puts an idle entry in front. -/
theorem addWorker_eq (hp : Rep p l) {pid : ℤ} {a : ℕ} (ha : p.heap.cells a = none)
    (hpid : ∀ x ∈ l, x.2.pid ≠ pid) :
    ∃ p', p.addWorker pid a = some p' ∧ Rep p' ((a, Worker.fresh pid) :: l) := by
  have hal := hp.list.notMem_of_cells_eq_none ha
  have hpids : (((a, Worker.fresh pid) :: l).map fun x => x.2.pid).Nodup :=
    List.nodup_cons.2 ⟨by simpa [Worker.fresh] using hpid, hp.pids⟩
  have hworkers : p.numWorkers + 1 = ((a, Worker.fresh pid) :: l).length := by
    simp [hp.workers]
  have hidle : p.numIdleWorkers + 1 = idleCount ((a, Worker.fresh pid) :: l) := by
    simp [idleCount_cons, hp.idle, Worker.fresh]
  by_cases hhead : p.head = none
  · obtain rfl := hp.list.head_eq_none_iff.1 hhead
    refine ⟨_, by simp [addWorker, Heap.alloc_of_none ha, hhead]; rfl, ?_, hpids, hworkers, hidle⟩
    exact DList.singleton (by simp)
  · have hne : l ≠ [] := fun hl => hhead (hp.list.head_eq_none_iff.2 hl)
    obtain ⟨h', hm, hl', -⟩ := ((hp.list.write hal ⟨Worker.fresh pid, none, none⟩).write hal
      ⟨Worker.fresh pid, p.head, none⟩).pushFront (d := Worker.fresh pid) hne (by simp) hal
    have hw : (p.heap.write a ⟨Worker.fresh pid, none, none⟩).modify (some a)
        (fun n => { n with next := p.head }) = some ((p.heap.write a
          ⟨Worker.fresh pid, none, none⟩).write a ⟨Worker.fresh pid, p.head, none⟩) :=
      Heap.modify_some (n := ⟨Worker.fresh pid, none, none⟩) (by simp) _
    exact ⟨_, by simp [addWorker, Heap.alloc_of_none ha, hhead, hw, hm]; rfl, hl', hpids,
      hworkers, hidle⟩

/-- A successful `add_worker` is the one described by `addWorker_eq`. -/
theorem rep_of_addWorker (hp : Rep p l) {p' : Pool} {pid : ℤ} {a : ℕ}
    (hpid : ∀ x ∈ l, x.2.pid ≠ pid) (h : p.addWorker pid a = some p') :
    Rep p' ((a, Worker.fresh pid) :: l) := by
  cases ha : p.heap.cells a with
  | none =>
    obtain ⟨q, hq, hrep⟩ := addWorker_eq hp ha hpid
    obtain rfl : p' = q := Option.some.inj (h.symm.trans hq)
    exact hrep
  | some n => simp [addWorker, Heap.alloc, ha] at h

/-! ## Removing an entry -/

/-- The counters after one idle entry is gone. -/
theorem Rep.counters_remove {l₁ l₂ : List (ℕ × Worker)} {a : ℕ} {w : Worker}
    (hp : Rep p (l₁ ++ (a, w) :: l₂)) (hw : w.isIdle = 1) :
    p.numWorkers - 1 = (l₁ ++ l₂).length ∧ p.numIdleWorkers - 1 = idleCount (l₁ ++ l₂) := by
  rw [hp.workers, hp.idle]
  simp only [List.length_append, List.length_cons, idleCount_append, idleCount_cons, hw, if_true]
  omega

theorem Rep.pids_remove {l₁ l₂ : List (ℕ × Worker)} {a : ℕ} {w : Worker}
    (hp : Rep p (l₁ ++ (a, w) :: l₂)) : ((l₁ ++ l₂).map fun x => x.2.pid).Nodup :=
  hp.pids.sublist (((List.sublist_cons_self _ _).append_left l₁).map _)

/-- The pid comparison of `remove_worker` tests whether the entry is the first. -/
theorem Rep.pid_ne_of_cons {l : List (ℕ × Worker)} {x y : ℕ × Worker} (hp : Rep p (x :: l))
    (hy : y ∈ l) : y.2.pid ≠ x.2.pid := fun heq =>
  (List.nodup_cons.1 hp.pids).1 (List.mem_map.2 ⟨y, hy, heq⟩)

/-- Removing the only entry writes through the NULL head. -/
theorem removeWorker_alone {a : ℕ} {w : Worker} (hp : Rep p [(a, w)]) :
    p.removeWorker (some a) = none := by
  have hhead : p.head = some a := hp.list.head_eq
  have ha : p.heap.cells a = some ⟨w, none, none⟩ := hp.list.seg.1
  simp [removeWorker, hhead, ha]

/-- Removing the first entry of several. -/
theorem removeWorker_first {a b : ℕ} {w v : Worker} (hp : Rep p ((a, w) :: (b, v) :: l))
    (hw : w.isIdle = 1) :
    ∃ p', p.removeWorker (some a) = some p' ∧ Rep p' ((b, v) :: l) := by
  have hhead : p.head = some a := hp.list.head_eq
  have ha : p.heap.cells a = some ⟨w, some b, none⟩ := hp.list.seg.1
  obtain ⟨h', hm, hl', ha'⟩ := hp.list.unlinkFirst
  have hnd := (List.nodup_cons.1 hp.list.nodup).1
  refine ⟨_, by simp [removeWorker, hhead, ha, hm, Heap.free_some (ha'.trans ha)]; rfl, ?_⟩
  have hp' : Rep p ([] ++ (a, w) :: (b, v) :: l) := hp
  have hc := hp'.counters_remove hw
  exact ⟨hl'.erase hnd, hp'.pids_remove, hc.1, hc.2⟩

/-- Removing an entry behind the first. -/
theorem removeWorker_later {l₁ l₂ : List (ℕ × Worker)} {q a : ℕ} {v w : Worker}
    (hp : Rep p (l₁ ++ [(q, v)] ++ (a, w) :: l₂)) (hw : w.isIdle = 1) :
    ∃ p', p.removeWorker (some a) = some p' ∧ Rep p' (l₁ ++ [(q, v)] ++ l₂) := by
  have hnd : a ∉ (l₁ ++ [(q, v)] ++ l₂).map Prod.fst := by
    have hnd := hp.list.nodup
    rw [List.map_append, List.map_cons] at hnd
    rw [List.map_append]
    exact (List.nodup_middle.1 hnd).notMem
  have ha : p.heap.cells a = some ⟨w, firstPtr l₂ none, some q⟩ := by
    have hs := (dseg_append.1 hp.list.seg).2.1
    rwa [lastPtr_append_singleton] at hs
  -- the head is another entry, whose pid differs
  obtain ⟨hd, r, hr⟩ := List.exists_cons_of_ne_nil (l := l₁ ++ [(q, v)]) (by simp)
  have hrep := hp
  rw [hr, List.cons_append] at hrep
  have hhead : p.head = some hd.1 := hrep.list.head_eq
  have hcell : p.heap.cells hd.1 = some ⟨hd.2, firstPtr (r ++ (a, w) :: l₂) none, none⟩ :=
    hrep.list.seg.1
  have hpid : w.pid ≠ hd.2.pid := hrep.pid_ne_of_cons (y := (a, w)) (by simp)
  have hc := hp.counters_remove hw
  cases l₂ with
  | nil =>
    obtain ⟨h₁, hm, hl', ha'⟩ := hp.list.unlinkLast
    rw [firstPtr_nil] at ha
    refine ⟨_, by simp [removeWorker, hhead, hcell, ha, hpid, hm, ha',
      Heap.free_some (ha'.trans ha)]; rfl, ?_⟩
    rw [List.append_nil] at hnd hc ⊢
    have hl' := hl'.erase hnd
    rw [hhead] at hl'
    exact ⟨hl', by simpa using hp.pids_remove, hc.1, hc.2⟩
  | cons y l₂ =>
    obtain ⟨h₁, h₂, hm₁, hm₂, hl', ha₁, ha₂⟩ := hp.list.unlinkMiddle
    rw [firstPtr_cons] at ha
    refine ⟨_, by simp [removeWorker, hhead, hcell, ha, hpid, hm₁, ha₁, hm₂,
      Heap.free_some (ha₂.trans ha)]; rfl, ?_⟩
    have hl' := hl'.erase hnd
    rw [hhead] at hl'
    exact ⟨hl', hp.pids_remove, hc.1, hc.2⟩

/-- Removing one of several entries goes through. -/
theorem removeWorker_isSome {l₁ l₂ : List (ℕ × Worker)} {a : ℕ} {w : Worker}
    (hp : Rep p (l₁ ++ (a, w) :: l₂)) (hw : w.isIdle = 1) (hne : l₁ ++ l₂ ≠ []) :
    p.removeWorker (some a) ≠ none := by
  rcases List.eq_nil_or_concat l₁ with rfl | ⟨l₁, ⟨q, v⟩, rfl⟩
  · cases l₂ with
    | nil => exact absurd rfl hne
    | cons y l₂ =>
      obtain ⟨p', hp', -⟩ := removeWorker_first hp hw
      simp [hp']
  · obtain ⟨p', hp', -⟩ := removeWorker_later (by simpa using hp) hw
    simp [hp']

/-- A successful `remove_worker` takes out its entry. -/
theorem rep_of_removeWorker {p' : Pool} {l₁ l₂ : List (ℕ × Worker)} {a : ℕ} {w : Worker}
    (hp : Rep p (l₁ ++ (a, w) :: l₂)) (hw : w.isIdle = 1)
    (h : p.removeWorker (some a) = some p') : Rep p' (l₁ ++ l₂) := by
  rcases List.eq_nil_or_concat l₁ with rfl | ⟨l₁, ⟨q, v⟩, rfl⟩
  · cases l₂ with
    | nil =>
      rw [removeWorker_alone hp] at h
      cases h
    | cons y l₂ =>
      obtain ⟨q, hq, hrep⟩ := removeWorker_first hp hw
      obtain rfl : p' = q := Option.some.inj (h.symm.trans hq)
      exact hrep
  · obtain ⟨q, hq, hrep⟩ := removeWorker_later (by simpa using hp) hw
    obtain rfl : p' = q := Option.some.inj (h.symm.trans hq)
    simpa using hrep

/-! ## Handling a message -/

/-- Changing the data of one entry. -/
theorem Rep.setData {l₁ l₂ : List (ℕ × Worker)} {a : ℕ} {w : Worker}
    (hp : Rep p (l₁ ++ (a, w) :: l₂)) (f : Worker → Worker) (hf : (f w).pid = w.pid) :
    ∃ heap, p.heap.modify (some a) (fun n => { n with data := f n.data }) = some heap ∧
      DList heap p.head (l₁ ++ (a, f w) :: l₂) ∧
      ((l₁ ++ (a, f w) :: l₂).map fun x => x.2.pid).Nodup := by
  obtain ⟨heap, hm, hl⟩ := hp.list.setData f
  refine ⟨heap, hm, hl, ?_⟩
  have hpids := hp.pids
  simp only [List.map_append, List.map_cons] at hpids ⊢
  rwa [hf]

/-- `GOT_REQUEST` from an idle entry clears its flag. -/
theorem handleControlMsg_got (cfg : Config) {l₁ l₂ : List (ℕ × Worker)} {a : ℕ} {w : Worker}
    (hp : Rep p (l₁ ++ (a, w) :: l₂)) (hw : w.isIdle = 1) (r : ℤ) :
    ∃ p', p.handleControlMsg cfg ⟨gotRequest, w.pid, r⟩ =
        some (p', if p'.numIdleWorkers < cfg.minSpareServers then .create else .done) ∧
      Rep p' (l₁ ++ (a, { w with isIdle := 0 }) :: l₂) ∧
      p'.numIdleWorkers = p.numIdleWorkers - 1 := by
  obtain ⟨heap, hm, hl, hpids⟩ := hp.setData (fun w => { w with isIdle := 0 }) rfl
  refine ⟨⟨heap, p.head, p.numIdleWorkers - 1, p.numWorkers⟩, ?_, ⟨hl, hpids, ?_, ?_⟩, rfl⟩
  · simp only [handleControlMsg, if_true, getWorkerById_of_mem hp, Option.bind_eq_bind,
      Option.bind_some, hm]
    rfl
  · simpa using hp.workers
  · have hi := hp.idle
    simp only [idleCount_append, idleCount_cons, hw, if_true] at hi ⊢
    simp [hi]
    omega

/-- `COMPLETED_REQUEST` from a busy entry sets its flag and its count of requests. -/
theorem handleControlMsg_completed (cfg : Config) {l₁ l₂ : List (ℕ × Worker)} {a : ℕ} {w : Worker}
    (hp : Rep p (l₁ ++ (a, w) :: l₂)) (hw : w.isIdle = 0) (r : ℤ) :
    ∃ p', p.handleControlMsg cfg ⟨completedRequest, w.pid, r⟩ =
        some (p',
          if p'.numIdleWorkers > cfg.maxSpareServers then .remove (some a) false
          else if r ≡ cfg.maxRequestsPerChild [ZMOD 2 ^ 32] then .remove (some a) true
          else .ack (some a)) ∧
      Rep p' (l₁ ++ (a, { w with isIdle := 1, reqsHandled := r }) :: l₂) ∧
      p'.numIdleWorkers = p.numIdleWorkers + 1 := by
  obtain ⟨heap, hm, hl, hpids⟩ :=
    hp.setData (fun w => { w with isIdle := 1, reqsHandled := r }) rfl
  refine ⟨⟨heap, p.head, p.numIdleWorkers + 1, p.numWorkers⟩, ?_, ⟨hl, hpids, ?_, ?_⟩, rfl⟩
  · have hne : completedRequest ≠ gotRequest := by decide
    simp only [handleControlMsg, if_neg hne, if_true, getWorkerById_of_mem hp,
      Option.bind_eq_bind, Option.bind_some, hm]
    rfl
  · simpa using hp.workers
  · have hi := hp.idle
    simp only [idleCount_append, idleCount_cons, hw, if_true] at hi ⊢
    simp [hi]
    omega

/-! ## The counters alone -/

section Counters

variable {p' : Pool}

/-- `add_worker` counts one more idle worker, whatever the list is. -/
theorem counters_addWorker {pid : ℤ} {a : ℕ} (h : p.addWorker pid a = some p') :
    p'.numWorkers = p.numWorkers + 1 ∧ p'.numIdleWorkers = p.numIdleWorkers + 1 := by
  simp only [addWorker, Option.bind_eq_bind, Option.bind_eq_some_iff] at h
  obtain ⟨heap, -, h⟩ := h
  split at h
  · cases h
    exact ⟨rfl, rfl⟩
  · obtain ⟨heap₁, -, heap₂, -, h⟩ := by
      simpa only [Option.bind_eq_some_iff] using h
    cases h
    exact ⟨rfl, rfl⟩

/-- `remove_worker` counts one less. -/
theorem counters_removeWorker {a : ℕ} (h : p.removeWorker (some a) = some p') :
    p'.numWorkers = p.numWorkers - 1 ∧ p'.numIdleWorkers = p.numIdleWorkers - 1 := by
  simp only [removeWorker, Option.bind_eq_bind, Option.bind_eq_some_iff] at h
  obtain ⟨wk, -, hd, -, h⟩ := h
  split at h
  · obtain ⟨heap₁, -, heap₂, -, h⟩ := by
      simpa only [Option.bind_eq_some_iff] using h
    cases h
    exact ⟨rfl, rfl⟩
  · obtain ⟨heap₁, -, wk', -, h⟩ := by
      simpa only [Option.bind_eq_some_iff] using h
    split at h
    · obtain ⟨heap₂, -, heap₃, -, h⟩ := by
        simpa only [Option.bind_eq_some_iff] using h
      cases h
      exact ⟨rfl, rfl⟩
    · obtain ⟨heap₃, -, h⟩ := by
        simpa only [Option.bind_some, Option.bind_eq_some_iff] using h
      cases h
      exact ⟨rfl, rfl⟩

/-- The counters and the branch taken by `handle_control_msg`. Only a `COMPLETED_REQUEST`
leads to a removal, and the entry removed is not NULL. -/
theorem counters_handleControlMsg {cfg : Config} {m : ControlMsg} {act : Action}
    (h : p.handleControlMsg cfg m = some (p', act)) :
    p'.numWorkers = p.numWorkers ∧
      (m.type = gotRequest ∧ p'.numIdleWorkers = p.numIdleWorkers - 1 ∧
          act = (if p'.numIdleWorkers < cfg.minSpareServers then .create else .done) ∨
        (∃ a, m.type = completedRequest ∧ p'.numIdleWorkers = p.numIdleWorkers + 1 ∧
          act = if p'.numIdleWorkers > cfg.maxSpareServers then .remove (some a) false
            else if m.reqsHandled ≡ cfg.maxRequestsPerChild [ZMOD 2 ^ 32] then
              .remove (some a) true
            else .ack (some a)) ∨
        m.type ≠ gotRequest ∧ m.type ≠ completedRequest ∧
          p'.numIdleWorkers = p.numIdleWorkers ∧ act = .done) := by
  unfold handleControlMsg at h
  split at h
  · rename_i htype
    simp only [Option.bind_eq_bind, Option.bind_eq_some_iff] at h
    obtain ⟨wk, -, heap, -, h⟩ := h
    cases h
    exact ⟨rfl, Or.inl ⟨htype, rfl, rfl⟩⟩
  · rename_i hgot
    split at h
    · rename_i htype
      simp only [Option.bind_eq_bind, Option.bind_eq_some_iff] at h
      obtain ⟨wk, -, heap, hm, h⟩ := h
      cases wk with
      | none => cases hm
      | some a =>
        cases h
        exact ⟨rfl, Or.inr (Or.inl ⟨a, htype, rfl, rfl⟩)⟩
    · rename_i hcompleted
      cases h
      exact ⟨rfl, Or.inr (Or.inr ⟨hgot, hcompleted, rfl, rfl⟩)⟩

/-- An entry that is answered was given the count in the message, which is not the quota. -/
theorem reqsHandled_of_ack {cfg : Config} {m : ControlMsg} {wk : Option ℕ}
    (h : p.handleControlMsg cfg m = some (p', .ack wk)) :
    ∃ n, p'.heap.load wk = some n ∧ n.data.reqsHandled = m.reqsHandled ∧
      ¬m.reqsHandled ≡ cfg.maxRequestsPerChild [ZMOD 2 ^ 32] := by
  unfold handleControlMsg at h
  split at h
  · simp only [Option.bind_eq_bind, Option.bind_eq_some_iff] at h
    obtain ⟨wk', -, heap, -, h⟩ := h
    simp only [Option.pure_def, Option.some.injEq, Prod.mk.injEq] at h
    obtain ⟨-, h⟩ := h
    split at h <;> cases h
  · split at h
    · simp only [Option.bind_eq_bind, Option.bind_eq_some_iff] at h
      obtain ⟨wk', -, heap, hm, h⟩ := h
      simp only [Option.pure_def, Option.some.injEq, Prod.mk.injEq] at h
      obtain ⟨rfl, h⟩ := h
      split_ifs at h with hmax hquota
      cases h
      cases wk with
      | none => cases hm
      | some a =>
        obtain ⟨n, hn, rfl⟩ := Option.map_eq_some_iff.1 hm
        exact ⟨_, by simp; rfl, rfl, hquota⟩
    · cases h

end Counters

end Pool

end NetProg.Prefork
