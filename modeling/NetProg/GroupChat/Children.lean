import NetProg.GroupChat.Forward

/-!
# The children of a client

`handlePollCommand` and `requestFileCmdHandler` fork a child each. The child of a request
waits for the file and exits with success when it has it. The parent calls `wait`, which
returns any child that ended, and takes its status for that of the transfer. Nobody waits
for the children of the polls, so that they stay for the `wait` of a later request, as
does a transfer child whose `wait` returned another one.

`clientStep` runs one client. The children are numbered in the order of the forks, and the
calls of `requestFileCmdHandler` are kept as a ghost. `callsFaithful_iff` says in which
runs a request succeeds if and only if its file arrives.
-/

namespace NetProg.GroupChat

/-- How a process ends : with `exit`, or by a signal. -/
inductive Status where
  | exited (code : ℕ)
  | signaled
deriving DecidableEq, Repr

/-- `WIFEXITED` and `WEXITSTATUS` is `EXIT_SUCCESS`. -/
def Status.success : Status → Bool
  | .exited code => code == 0
  | .signaled => false

/-- A child. -/
inductive Child where
  | running
  /-- It ended and nobody waited for it. -/
  | zombie (status : Status)
  /-- `wait` returned it. -/
  | reaped (status : Status)
deriving DecidableEq, Repr

/-- The child exited with success. -/
def Child.exitedOk : Child → Bool
  | .running => false
  | .zombie status | .reaped status => status.success

/-- A finished call of `requestFileCmdHandler`, with the child it forked, its result and the
files before and after. -/
structure Call where
  fileName : String
  transfer : Option ℕ
  result : ℤ
  before : List String
  after : List String
deriving DecidableEq, Repr

/-- A client. In `wait`, it has the name it requests and the child it forked for it. -/
structure Client where
  children : List Child
  files : List String
  waiting : Option (String × ℕ)
  calls : List Call
deriving DecidableEq, Repr

/-- A step. -/
inductive ClientLabel where
  /-- `handlePollCommand` forks a child. -/
  | initPoll
  /-- `requestFileCmdHandler` is called, by the user or for a received list. `socket` says
  that the calls for the socket succeed. -/
  | requestFile (fileName : String) (socket : Bool)
  | ends (k : ℕ) (status : Status)
  | waitReturns (k : ℕ)
deriving DecidableEq, Repr

/-- The checks of `requestFileCmdHandler` before it forks : the result when one fails. -/
def refused (socket : Bool) (fileName : String) (files : List String) : Option ℤ :=
  if fileName ∈ files then some (-1)
  else if files.length = maxFileAllowed then some (-4)
  else if socket then none
  else some (-2)

/-- What `requestFileCmdHandler` does with the status that `wait` returns. -/
def afterWait (status : Status) (fileName : String) (files : List String) : ℤ × List String :=
  if status.success then (0, files ++ [fileName]) else (-2, files)

/-- One step. -/
def clientStep (s : Client) : ClientLabel → Option Client
  | .initPoll =>
    if s.waiting = none then some { s with children := s.children ++ [.running] } else none
  | .requestFile fileName socket =>
    if s.waiting = none then
      match refused socket fileName s.files with
      | some result =>
        some { s with calls := s.calls ++ [⟨fileName, none, result, s.files, s.files⟩] }
      | none =>
        some { s with
          children := s.children ++ [.running]
          waiting := some (fileName, s.children.length) }
    else none
  | .ends k status =>
    if s.children[k]? = some .running then
      some { s with children := s.children.set k (.zombie status) }
    else none
  | .waitReturns k =>
    match s.waiting, s.children[k]? with
    | some (fileName, own), some (.zombie status) =>
      let (result, files) := afterWait status fileName s.files
      some
        { children := s.children.set k (.reaped status)
          files := files
          waiting := none
          calls := s.calls ++ [⟨fileName, some own, result, s.files, files⟩] }
    | _, _ => none

/-- The call with the children that end well is the handler with one answer. -/
theorem requestFileCmdHandler_eq (status : Status) (fileName : String) (files : List String) :
    requestFileCmdHandler status.success fileName files =
      match refused true fileName files with
      | some result => (result, files)
      | none => afterWait status fileName files := by
  unfold requestFileCmdHandler refused afterWait
  split
  · rfl
  split
  · rfl
  · rfl

/-! ## What a step does -/

section Step

variable {s s' : Client} {k : ℕ} {status : Status} {fileName : String} {socket : Bool}

theorem clientStep_initPoll : clientStep s .initPoll = some s' ↔
    s.waiting = none ∧ s' = { s with children := s.children ++ [.running] } := by
  rw [clientStep, Option.ite_none_right_eq_some, Option.some.injEq, eq_comm (a := s')]

theorem clientStep_requestFile : clientStep s (.requestFile fileName socket) = some s' ↔
    s.waiting = none ∧
      ((∃ result, refused socket fileName s.files = some result ∧
        s' = { s with calls := s.calls ++ [⟨fileName, none, result, s.files, s.files⟩] }) ∨
      refused socket fileName s.files = none ∧
        s' = { s with
          children := s.children ++ [.running]
          waiting := some (fileName, s.children.length) }) := by
  simp only [clientStep, Option.ite_none_right_eq_some]
  refine and_congr_right fun _ => ?_
  cases refused socket fileName s.files with
  | some result => simp [eq_comm]
  | none => simp [eq_comm]

theorem clientStep_ends : clientStep s (.ends k status) = some s' ↔
    s.children[k]? = some .running ∧
      s' = { s with children := s.children.set k (.zombie status) } := by
  rw [clientStep, Option.ite_none_right_eq_some, Option.some.injEq, eq_comm (a := s')]

theorem clientStep_waitReturns : clientStep s (.waitReturns k) = some s' ↔
    ∃ fileName own status, s.waiting = some (fileName, own) ∧
      s.children[k]? = some (.zombie status) ∧
        s' =
          { children := s.children.set k (.reaped status)
            files := (afterWait status fileName s.files).2
            waiting := none
            calls := s.calls ++ [⟨fileName, some own, (afterWait status fileName s.files).1,
              s.files, (afterWait status fileName s.files).2⟩] } := by
  simp only [clientStep]
  constructor
  · intro h
    split at h
    · rename_i fileName own status hwait hk
      exact ⟨fileName, own, status, hwait, hk, (Option.some.inj h).symm⟩
    · cases h
  · rintro ⟨fileName, own, status, hwait, hk, rfl⟩
    rw [hwait, hk]

end Step

/-! ## What a request promises -/

/-- Child `k` exited with success. -/
def exitedOk (children : List Child) (k : ℕ) : Bool :=
  children[k]?.any Child.exitedOk

/-- The call returned 0 and added the name. -/
def Call.Succeeded (c : Call) : Prop :=
  c.result = 0 ∧ c.after = c.before ++ [c.fileName]

/-- A call succeeded if and only if the child that it forked exited with success. -/
def CallsFaithful (s : Client) : Prop :=
  ∀ c ∈ s.calls, c.Succeeded ↔ ∃ k ∈ c.transfer, exitedOk s.children k

/-- `wait` returns a child that exited with success exactly when the child of the call did,
and no child of a call that is over exits with success. -/
def ReapsAlike (s : Client) : ClientLabel → Prop
  | .waitReturns k => ∀ w ∈ s.waiting, exitedOk s.children k = exitedOk s.children w.2
  | .ends k status => status.success → ∀ c ∈ s.calls, c.transfer ≠ some k
  | _ => True

instance (s : Client) (l : ClientLabel) : Decidable (ReapsAlike s l) :=
  match l with
  | .initPoll => .isTrue trivial
  | .requestFile _ _ => .isTrue trivial
  | .ends k status =>
    inferInstanceAs (Decidable (status.success → ∀ c ∈ s.calls, c.transfer ≠ some k))
  | .waitReturns k =>
    inferInstanceAs (Decidable (∀ w ∈ s.waiting, exitedOk s.children k = exitedOk s.children w.2))

/-! ## Children -/

section Children

variable {children : List Child} {k : ℕ} {status : Status}

theorem exitedOk_append_running (j : ℕ) :
    exitedOk (children ++ [.running]) j = exitedOk children j := by
  unfold exitedOk
  rcases lt_trichotomy j children.length with hj | rfl | hj
  · rw [List.getElem?_append_left hj]
  · simp [Child.exitedOk]
  · rw [List.getElem?_eq_none (by simpa using hj), List.getElem?_eq_none hj.le]

/-- A child that ends. -/
theorem exitedOk_zombie (h : children[k]? = some .running) (j : ℕ) :
    exitedOk (children.set k (.zombie status)) j =
      if j = k then status.success else exitedOk children j := by
  obtain ⟨hlt, -⟩ := List.getElem?_eq_some_iff.1 h
  unfold exitedOk
  by_cases hj : j = k
  · subst hj
    simp [hlt, Child.exitedOk]
  · rw [if_neg hj, List.getElem?_set_ne (Ne.symm hj)]

/-- A child that is waited for. -/
theorem exitedOk_reaped (h : children[k]? = some (.zombie status)) (j : ℕ) :
    exitedOk (children.set k (.reaped status)) j = exitedOk children j := by
  obtain ⟨hlt, -⟩ := List.getElem?_eq_some_iff.1 h
  unfold exitedOk
  by_cases hj : j = k
  · subst hj
    rw [List.getElem?_set_self hlt, h]
    rfl
  · rw [List.getElem?_set_ne (Ne.symm hj)]

theorem exitedOk_of_running (h : children[k]? = some .running) : exitedOk children k = false := by
  simp [exitedOk, h, Child.exitedOk]

end Children

/-! ## Steps -/

/-- Calls stay faithful while the children that exited with success are the same. -/
theorem callsFaithful_congr {s s' : Client} (h : CallsFaithful s) (hcalls : s'.calls = s.calls)
    (hok : ∀ k, exitedOk s'.children k = exitedOk s.children k) : CallsFaithful s' := by
  simpa only [CallsFaithful, hcalls, hok] using h

/-- One call more. -/
theorem callsFaithful_append {s s' : Client} {c : Call} (h : CallsFaithful s)
    (hcalls : s'.calls = s.calls ++ [c])
    (hok : ∀ k, exitedOk s'.children k = exitedOk s.children k) :
    CallsFaithful s' ↔ (c.Succeeded ↔ ∃ k ∈ c.transfer, exitedOk s.children k) := by
  simp only [CallsFaithful, hcalls, hok, List.forall_mem_append, List.forall_mem_singleton]
  exact and_iff_right h

theorem refused_ne_zero {socket : Bool} {fileName : String} {files : List String} {result : ℤ}
    (h : refused socket fileName files = some result) : result ≠ 0 := by
  unfold refused at h
  split at h
  · cases h
    decide
  split at h
  · cases h
    decide
  split at h
  · cases h
  · cases h
    decide

theorem succeeded_afterWait {status : Status} {fileName : String} {files : List String}
    {transfer : Option ℕ} :
    Call.Succeeded ⟨fileName, transfer, (afterWait status fileName files).1, files,
      (afterWait status fileName files).2⟩ ↔ status.success = true := by
  unfold Call.Succeeded afterWait
  cases status.success with
  | true => simp
  | false => simp

/-- What one step keeps and breaks. -/
theorem callsFaithful_step_iff {s s' : Client} {l : ClientLabel} (h : CallsFaithful s)
    (hstep : clientStep s l = some s') : CallsFaithful s' ↔ ReapsAlike s l := by
  cases l with
  | initPoll =>
    obtain ⟨-, rfl⟩ := clientStep_initPoll.1 hstep
    exact iff_of_true (callsFaithful_congr h rfl exitedOk_append_running) trivial
  | requestFile fileName socket =>
    obtain ⟨-, ⟨result, hres, rfl⟩ | ⟨-, rfl⟩⟩ := clientStep_requestFile.1 hstep
    · refine iff_of_true (fun c hc => ?_) trivial
      rcases List.mem_append.1 hc with hc | hc
      · exact h c hc
      · obtain rfl := List.mem_singleton.1 hc
        exact iff_of_false (fun hok => refused_ne_zero hres hok.1) (by simp)
    · exact iff_of_true (callsFaithful_congr h rfl exitedOk_append_running) trivial
  | ends k status =>
    obtain ⟨hrun, rfl⟩ := clientStep_ends.1 hstep
    constructor
    · intro h' hok c hc hk
      have hnew := (h' c hc).2 ⟨k, hk, by rw [exitedOk_zombie hrun, if_pos rfl, hok]⟩
      obtain ⟨j, hj, hold⟩ := (h c hc).1 hnew
      obtain rfl := Option.some.inj (hk.symm.trans hj)
      exact absurd hold (by simp [exitedOk_of_running hrun])
    · intro hother c hc
      rw [h c hc]
      refine exists_congr fun j => and_congr_right fun hj => ?_
      rw [exitedOk_zombie hrun]
      split
      · rename_i hjk
        subst hjk
        have hfail : status.success ≠ true := fun hok => hother hok c hc hj
        rw [exitedOk_of_running hrun, Bool.eq_false_of_not_eq_true hfail]
      · rfl
  | waitReturns k =>
    obtain ⟨fileName, own, status, hwait, hk, rfl⟩ := clientStep_waitReturns.1 hstep
    have hstatus : exitedOk s.children k = status.success := by
      rw [exitedOk, hk]
      rfl
    rw [callsFaithful_append h rfl (exitedOk_reaped hk), succeeded_afterWait]
    simp only [ReapsAlike, hwait, hstatus, Option.mem_some_iff, exists_eq_left', forall_eq']
    exact Bool.eq_iff_iff.symm

/-! ## Runs -/

/-- A client with the given files before its first command. -/
def newClient (files : List String) : Client :=
  ⟨[], files, none, []⟩

theorem callsFaithful_newClient (files : List String) : CallsFaithful (newClient files) :=
  List.forall_mem_nil _

/-- In every run of a client, a call of `requestFileCmdHandler` returns 0 and adds the name
if and only if its own child exited with success, in every state, if and only if each `wait`
returns a child that exited with success exactly when the child of the call did, and no
child whose call is over exits with success. -/
theorem callsFaithful_iff (files : List String) (ls : List ClientLabel)
    (hr : (run clientStep (newClient files) ls).isSome) :
    Along clientStep CallsFaithful (newClient files) ls ↔
      StepsMeet clientStep ReapsAlike (newClient files) ls :=
  along_iff_stepsMeet (fun _ h => h)
    (fun _ _ _ h hc hstep => (callsFaithful_step_iff h hstep).2 hc)
    (fun _ _ _ h hnc hstep hP => hnc ((callsFaithful_step_iff h hstep).1 hP))
    (callsFaithful_newClient files) hr

/-! ## A client with no polls -/

/-- The children that nobody waited for are that of the call that waits. -/
structure OwnChildren (s : Client) : Prop where
  left : ∀ k ch, s.children[k]? = some ch →
    (∃ status, ch = .reaped status) ∨ ∃ fileName, s.waiting = some (fileName, k)
  ended : ∀ c ∈ s.calls, ∀ k ∈ c.transfer, ∃ status, s.children[k]? = some (.reaped status)

theorem ownChildren_newClient (files : List String) : OwnChildren (newClient files) where
  left := fun k ch hk => by simp [newClient] at hk
  ended := List.forall_mem_nil _

/-- A child that was waited for stays in its place while others end. -/
theorem reaped_set {children : List Child} {j k : ℕ} {status : Status} {ch : Child}
    (h : children[j]? = some (.reaped status)) (hk : k ≠ j) :
    (children.set k ch)[j]? = some (.reaped status) := by
  rw [List.getElem?_set_ne hk, h]

/-- A request that is refused. -/
theorem OwnChildren.refused {s : Client} (h : OwnChildren s) (fileName : String) (result : ℤ) :
    OwnChildren
      { s with calls := s.calls ++ [⟨fileName, none, result, s.files, s.files⟩] } := by
  refine ⟨h.left, fun c hc k hk => ?_⟩
  rcases List.mem_append.1 hc with hc | hc
  · exact h.ended c hc k hk
  · obtain rfl := List.mem_singleton.1 hc
    cases hk

/-- A request that forks. -/
theorem OwnChildren.fork {s : Client} (h : OwnChildren s) (hwait : s.waiting = none)
    (fileName : String) :
    OwnChildren
      { s with
        children := s.children ++ [.running]
        waiting := some (fileName, s.children.length) } := by
  refine ⟨fun k ch hk => ?_, fun c hc k hk => ?_⟩
  · rw [List.getElem?_append] at hk
    split at hk
    · -- nobody waited before
      refine .inl ((h.left k ch hk).resolve_right ?_)
      rw [hwait]
      exact fun ⟨_, hw⟩ => by cases hw
    · obtain ⟨hlt, -⟩ := List.getElem?_eq_some_iff.1 hk
      rw [List.length_singleton] at hlt
      exact .inr ⟨fileName, by rw [show s.children.length = k by omega]⟩
  · obtain ⟨status, hstatus⟩ := h.ended c hc k hk
    obtain ⟨hlt, -⟩ := List.getElem?_eq_some_iff.1 hstatus
    exact ⟨status, by rw [List.getElem?_append_left hlt, hstatus]⟩

/-- A child that nobody waited for is that of the call that waits. -/
theorem OwnChildren.waiting {s : Client} (h : OwnChildren s) {k : ℕ} {ch : Child}
    (hk : s.children[k]? = some ch) (hch : ∀ status, ch ≠ .reaped status) :
    ∃ fileName, s.waiting = some (fileName, k) :=
  (h.left k ch hk).resolve_left fun ⟨status, hr⟩ => hch status hr

theorem OwnChildren.ends {s : Client} (h : OwnChildren s) {k : ℕ} (status : Status)
    (hrun : s.children[k]? = some .running) :
    OwnChildren { s with children := s.children.set k (.zombie status) } := by
  refine ⟨fun j ch hj => ?_, fun c hc j hj => ?_⟩
  · by_cases hjk : k = j
    · subst hjk
      exact .inr (h.waiting hrun fun _ => by simp)
    · rw [List.getElem?_set_ne hjk] at hj
      exact h.left j ch hj
  · obtain ⟨st, hst⟩ := h.ended c hc j hj
    refine ⟨st, reaped_set hst ?_⟩
    rintro rfl
    rw [hrun] at hst
    cases hst

theorem OwnChildren.waitReturns {s s' : Client} (h : OwnChildren s) {k : ℕ}
    (hstep : clientStep s (.waitReturns k) = some s') : OwnChildren s' := by
  obtain ⟨fileName, own, status, hwait, hk, rfl⟩ := clientStep_waitReturns.1 hstep
  obtain ⟨hlt, -⟩ := List.getElem?_eq_some_iff.1 hk
  obtain ⟨name, hname⟩ := h.waiting hk fun _ => by simp
  obtain ⟨rfl, rfl⟩ : fileName = name ∧ own = k := by simpa [hwait] using hname
  have hself : (s.children.set own (.reaped status))[own]? = some (.reaped status) :=
    List.getElem?_set_self hlt
  refine ⟨fun j ch hj => .inl ?_, fun c hc j hj => ?_⟩
  · by_cases hjk : own = j
    · subst hjk
      exact ⟨status, Option.some.inj (hj.symm.trans hself)⟩
    · rw [List.getElem?_set_ne hjk] at hj
      refine (h.left j ch hj).resolve_right fun ⟨name', hname'⟩ => hjk ?_
      exact congrArg Prod.snd (Option.some.inj (hwait.symm.trans hname'))
  · rcases List.mem_append.1 hc with hc | hc
    · by_cases hjk : own = j
      · subst hjk
        exact ⟨status, hself⟩
      · obtain ⟨st, hst⟩ := h.ended c hc j hj
        exact ⟨st, reaped_set hst hjk⟩
    · obtain rfl := List.mem_singleton.1 hc
      obtain rfl := Option.some.inj hj
      exact ⟨status, hself⟩

theorem ownChildren_step {s s' : Client} {l : ClientLabel} (h : OwnChildren s)
    (hl : l ≠ .initPoll) (hstep : clientStep s l = some s') : OwnChildren s' := by
  cases l with
  | initPoll => exact absurd rfl hl
  | requestFile fileName socket =>
    obtain ⟨hwait, ⟨result, -, rfl⟩ | ⟨-, rfl⟩⟩ := clientStep_requestFile.1 hstep
    · exact h.refused fileName result
    · exact h.fork hwait fileName
  | ends k status =>
    obtain ⟨hrun, rfl⟩ := clientStep_ends.1 hstep
    exact h.ends status hrun
  | waitReturns k => exact h.waitReturns hstep

/-- Its `wait` returns the child of the call. -/
theorem reapsAlike_of_ownChildren {s s' : Client} {l : ClientLabel} (h : OwnChildren s)
    (hstep : clientStep s l = some s') : ReapsAlike s l := by
  cases l with
  | initPoll => trivial
  | requestFile fileName socket => trivial
  | ends k status =>
    obtain ⟨hrun, -⟩ := clientStep_ends.1 hstep
    intro _ c hc hk
    obtain ⟨st, hst⟩ := h.ended c hc k hk
    rw [hrun] at hst
    cases hst
  | waitReturns k =>
    obtain ⟨fileName, own, status, -, hk, -⟩ := clientStep_waitReturns.1 hstep
    obtain ⟨name, hname⟩ := h.waiting hk fun _ => by simp
    intro w hw
    obtain rfl := Option.some.inj (hname.symm.trans hw)
    rfl

/-- Without polls every request that is made is answered right. -/
theorem callsFaithful_of_noPolls (files : List String) {ls : List ClientLabel}
    (hls : ∀ l ∈ ls, l ≠ .initPoll) : Along clientStep CallsFaithful (newClient files) ls :=
  along_of_stepsMeet (I := fun s => CallsFaithful s ∧ OwnChildren s) (c := fun _ l => l ≠ .initPoll)
    (fun _ h => h.1)
    (fun _ _ _ h hl hstep =>
      ⟨(callsFaithful_step_iff h.1 hstep).2 (reapsAlike_of_ownChildren h.2 hstep),
        ownChildren_step h.2 hl hstep⟩)
    ⟨callsFaithful_newClient files, ownChildren_newClient files⟩
    (stepsMeet_of_forall (fun l hl _ => hls l hl) _)

/-! ## A client with polls -/

/-- A poll runs while a file is received. -/
def ownTransfer : List ClientLabel :=
  [.initPoll, .requestFile "f" true, .ends 1 (.exited 0), .waitReturns 1, .ends 0 (.exited 0)]

theorem callsFaithful_ownTransfer :
    (run clientStep (newClient []) ownTransfer).isSome ∧
      Along clientStep CallsFaithful (newClient []) ownTransfer :=
  ⟨by decide, (callsFaithful_iff [] ownTransfer (by decide)).2 (by decide)⟩

/-- A poll is over before a file is requested that nobody has. -/
def endedPoll : List ClientLabel :=
  [.initPoll, .ends 0 (.exited 0), .requestFile "f" true, .waitReturns 0, .ends 1 (.exited 1)]

/-- The child of the poll is taken for that of the transfer. -/
theorem not_callsFaithful_endedPoll :
    (run clientStep (newClient []) endedPoll).map Client.files = some ["f"] ∧
      ¬Along clientStep CallsFaithful (newClient []) endedPoll := by
  refine ⟨by decide, fun h => ?_⟩
  have hlast : CallsFaithful ⟨[.reaped (.exited 0), .zombie (.exited 1)], ["f"], none,
      [⟨"f", some 1, 0, [], ["f"]⟩]⟩ := h.last (by decide)
  obtain ⟨k, hk, hok⟩ := (hlast _ (List.mem_singleton_self _)).1 ⟨rfl, rfl⟩
  obtain rfl := Option.some.inj hk
  exact absurd hok (by decide)

end NetProg.GroupChat
