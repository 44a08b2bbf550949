import NetProg.Rtt.Retirement

/-!
# When the sender stops

`sendHelper` leaves its loop when `tot_send_cnt` is `3 * unique_count`, or when it finds
the queue empty after the alarm. An iteration that finds an address counts `tot_send_cnt`
up by one, so the number of sends that are left bounds the iterations. The queue does not :
the receivers refill it, and an address whose sends keep failing stays in it.

A write outside of `rtt` changes no other field here, and `Rtt.Layout` says in which runs that
is so.
-/

namespace NetProg.Rtt

variable {cfg : Config} {s s' : Sys}

/-- The step is an iteration of `sendHelper`. -/
def isIteration (_ : Sys) : Label → Bool
  | .send _ _ => true
  | _ => false

/-- The step calls `fsend`. -/
def callsFsend (s : Sys) : Label → Bool
  | .send _ _ => s.sendQ.qFront.isSome
  | _ => false

/-- `tot_send_cnt` does not pass its target, and the sender is in its loop below the target
only, unless there is no address. -/
structure Budget (cfg : Config) (s : Sys) : Prop where
  le : s.totSendCnt ≤ 3 * cfg.uniqueCount
  room : s.sending = true → s.totSendCnt < 3 * cfg.uniqueCount ∨ cfg.addrs = []

theorem budget_init (cfg : Config) : Budget cfg (init cfg) where
  le := by simp [init, Config.uniqueCount]
  room _ := by
    by_cases h : cfg.addrs = []
    · exact .inr h
    · have := List.length_pos_of_ne_nil h
      simp [init, Config.uniqueCount, this]

/-! ## What a step does to `tot_send_cnt` -/

/-- The variables that bound the loop are the same. -/
structure SameLoop (s s' : Sys) : Prop where
  totSendCnt : s'.totSendCnt = s.totSendCnt
  sending : s'.sending = s.sending
  stopThreads : s.stopThreads = true → s'.stopThreads = true

/-- An iteration counts up and ends the loop at the target, or finds the queue empty and
ends the loop after the alarm. -/
theorem sendHelper_cases (cfg : Config) (s : Sys) (ok : Bool) (now : Timeval) :
    (∃ a, s.sendQ.qFront = some a ∧
      (sendHelper cfg s ok now).totSendCnt = s.totSendCnt + 1 ∧
      (sendHelper cfg s ok now).stopThreads = s.stopThreads ∧
      ((sendHelper cfg s ok now).sending = true →
        s.totSendCnt + 1 ≠ 3 * cfg.uniqueCount)) ∨
    s.sendQ.qFront = none ∧ (sendHelper cfg s ok now).totSendCnt = s.totSendCnt ∧
      (sendHelper cfg s ok now).stopThreads = s.stopThreads ∧
      ((sendHelper cfg s ok now).sending = true →
        s.sending = true ∧ s.stopThreads = false) := by
  cases hq : s.sendQ.qFront with
  | some a =>
    have hjob : (sendJob cfg s a ok now).totSendCnt = s.totSendCnt + 1 ∧
        (sendJob cfg s a ok now).stopThreads = s.stopThreads := by
      unfold sendJob
      dsimp only
      split_ifs <;> exact ⟨rfl, rfl⟩
    refine .inl ⟨a, rfl, ?_⟩
    simp only [sendHelper, sendLocked, hq]
    split
    · exact ⟨hjob.1, hjob.2, nofun⟩
    · rename_i hne
      exact ⟨hjob.1, hjob.2, fun _ => hjob.1 ▸ hne⟩
  | none =>
    refine .inr ⟨rfl, ?_⟩
    simp only [sendHelper, sendLocked, hq]
    cases hstop : s.stopThreads with
    | true =>
      simp only [if_true]
      split
      · exact ⟨rfl, rfl, nofun⟩
      · exact ⟨rfl, rfl, nofun⟩
    | false =>
      simp only [Bool.false_eq_true, if_false]
      split
      · exact ⟨rfl, hstop, nofun⟩
      · exact ⟨rfl, hstop, fun h => ⟨h, trivial⟩⟩

theorem sameLoop_recvPacket (cfg : Config) (fam : Family) (s : Sys) (caddr : Addr)
    (data : List UInt8) (tv : Timeval) : SameLoop s (recvPacket cfg fam s caddr data tv) := by
  unfold recvPacket afterProc
  dsimp only
  split_ifs <;> exact ⟨rfl, rfl, id⟩

/-- Every other step leaves the loop of the sender alone. -/
theorem sameLoop_of_step {l : Label} (hstep : step cfg s l = some s')
    (hl : isIteration s l = false) : SameLoop s s' := by
  cases l with
  | send ok now => cases hl
  | recv fam caddr data tv =>
    obtain ⟨-, -, rfl⟩ := step_recv.1 hstep
    exact sameLoop_recvPacket cfg fam s caddr data tv
  | recvNone fam =>
    obtain ⟨-, -, rfl⟩ := step_recvNone.1 hstep
    split
    · exact ⟨rfl, rfl, id⟩
    · exact ⟨rfl, rfl, id⟩
  | recvDone fam =>
    obtain ⟨-, -, rfl⟩ := step_recvDone.1 hstep
    exact ⟨rfl, rfl, id⟩
  | alarm =>
    obtain ⟨-, rfl⟩ := step_alarm.1 hstep
    exact ⟨rfl, rfl, fun _ => rfl⟩

/-- `tot_send_cnt` counts the calls of `fsend`. -/
theorem totSendCnt_step (cfg : Config) (s : Sys) (l : Label) (s' : Sys)
    (hstep : step cfg s l = some s') :
    s'.totSendCnt = s.totSendCnt + if callsFsend s l then 1 else 0 := by
  cases l with
  | send ok now =>
    obtain ⟨-, -, rfl⟩ := step_send.1 hstep
    rcases sendHelper_cases cfg s ok now with ⟨a, hq, htot, -⟩ | ⟨hq, htot, -⟩
    · simp [callsFsend, hq, htot]
    · simp [callsFsend, hq, htot]
  | recv | recvNone | recvDone | alarm =>
    rw [(sameLoop_of_step hstep rfl).totSendCnt]
    simp [callsFsend]

/-! ## The budget -/

theorem Budget.step (h : Budget cfg s) {l : Label} (hlisted : s.sendQ.elems ⊆ cfg.addrs)
    (hstep : step cfg s l = some s') : Budget cfg s' := by
  cases l with
  | send ok now =>
    obtain ⟨-, hsending, rfl⟩ := step_send.1 hstep
    rcases sendHelper_cases cfg s ok now with ⟨a, hq, htot, -, hend⟩ | ⟨-, htot, -, hend⟩
    · have ha : a ∈ cfg.addrs := hlisted (Queue.elems_of_qFront hq ▸ List.mem_cons_self)
      have hroom := (h.room hsending).resolve_right (List.ne_nil_of_mem ha)
      refine ⟨by omega, fun hs => .inl ?_⟩
      have := hend hs
      omega
    · refine ⟨htot ▸ h.le, fun hs => ?_⟩
      rw [htot]
      exact h.room (hend hs).1
  | recv | recvNone | recvDone | alarm =>
    have hsame := sameLoop_of_step hstep rfl
    refine ⟨hsame.totSendCnt ▸ h.le, fun hs => ?_⟩
    rw [hsame.totSendCnt]
    exact h.room (hsame.sending ▸ hs)

/-- The reachable states : the addresses are retired as `n` says, within the budget. -/
def BudgetInv (cfg : Config) (s : Sys) : Prop :=
  (∃ n, RetireInv cfg s n) ∧ Budget cfg s

theorem budgetInv_init (cfg : Config) : BudgetInv cfg (init cfg) :=
  ⟨⟨_, retireInv_init cfg⟩, budget_init cfg⟩

theorem budgetInv_step (cfg : Config) (s : Sys) (l : Label) (s' : Sys) (h : BudgetInv cfg s)
    (hstep : step cfg s l = some s') : BudgetInv cfg s' := by
  obtain ⟨⟨n, hn⟩, hb⟩ := h
  exact ⟨⟨_, retireInv_step cfg s n l s' hn hstep⟩, hb.step hn.listed hstep⟩

/-- The iterations until the sender leaves its loop. -/
def iterationsLeft (cfg : Config) (s : Sys) : ℤ :=
  if s.sending then 3 * cfg.uniqueCount - s.totSendCnt + 1 else 0

theorem iterationsLeft_le (h : Budget cfg s) :
    iterationsLeft cfg s ≤ 3 * cfg.uniqueCount - s.totSendCnt + 1 := by
  have := h.le
  unfold iterationsLeft
  split <;> omega

theorem sending_of_iterationsLeft (h : Budget cfg s) (hleft : iterationsLeft cfg s ≤ 0) :
    s.sending = false := by
  have := h.le
  by_contra hs
  rw [iterationsLeft, if_pos (by simpa using hs)] at hleft
  omega

/-- After the alarm every iteration uses up one of those that are left. -/
theorem iterationsLeft_step (cfg : Config) (s : Sys) (l : Label) (s' : Sys)
    (h : BudgetInv cfg s ∧ s.stopThreads = true) (hstep : step cfg s l = some s') :
    iterationsLeft cfg s' + (if isIteration s l then 1 else 0) ≤ iterationsLeft cfg s := by
  obtain ⟨⟨-, hb⟩, hstop⟩ := h
  cases l with
  | send ok now =>
    obtain ⟨-, hsending, rfl⟩ := step_send.1 hstep
    have hle := hb.le
    simp only [isIteration, iterationsLeft, hsending, if_true]
    rcases sendHelper_cases cfg s ok now with ⟨a, -, htot, -⟩ | ⟨-, -, -, hend⟩
    · rw [htot]
      split <;> omega
    · have hout : (sendHelper cfg s ok now).sending ≠ true := fun hs => by
        have hgo := (hend hs).2
        rw [hstop] at hgo
        cases hgo
      rw [if_neg hout]
      omega
  | recv | recvNone | recvDone | alarm =>
    have hsame := sameLoop_of_step hstep rfl
    simp [isIteration, iterationsLeft, hsame.sending, hsame.totSendCnt]

/-! ## Runs -/

/-- In every run `fsend` is called at most `3 * unique_count` times. In every state after
the alarm that is reached, the sender is out of its loop after at most
`3 * unique_count - tot_send_cnt + 1` more iterations. -/
theorem stops_run (cfg : Config) (ls : List Label) (s : Sys)
    (hr : run (step cfg) (init cfg) ls = some s) :
    stepCount (step cfg) callsFsend (init cfg) ls ≤ 3 * cfg.uniqueCount ∧
      (s.stopThreads = true → ∀ ms s', run (step cfg) s ms = some s' →
        stepCount (step cfg) isIteration s ms ≤ 3 * cfg.uniqueCount - s.totSendCnt + 1 ∧
          (stepCount (step cfg) isIteration s ms = 3 * cfg.uniqueCount - s.totSendCnt + 1 →
            s'.sending = false)) := by
  have h : BudgetInv cfg s := run_invariant_of_step (budgetInv_step cfg) (budgetInv_init cfg) hr
  constructor
  · have hcalls := stepCount_eq (m := Sys.totSendCnt) (totSendCnt_step cfg) hr
    have hle := h.2.le
    have hzero : (init cfg).totSendCnt = 0 := rfl
    omega
  intro hstop ms s' hr'
  have hstep : ∀ s l s', BudgetInv cfg s ∧ s.stopThreads = true → step cfg s l = some s' →
      BudgetInv cfg s' ∧ s'.stopThreads = true := by
    rintro s l s' ⟨h, hstop⟩ hstep
    refine ⟨budgetInv_step cfg s l s' h hstep, ?_⟩
    cases l with
    | send ok now =>
      obtain ⟨-, -, rfl⟩ := step_send.1 hstep
      rcases sendHelper_cases cfg s ok now with ⟨a, -, -, hsame, -⟩ | ⟨-, -, hsame, -⟩
      · exact hsame.trans hstop
      · exact hsame.trans hstop
    | recv | recvNone | recvDone | alarm => exact (sameLoop_of_step hstep rfl).stopThreads hstop
  have hcount := stepCount_add_le hstep (iterationsLeft_step cfg) ⟨h, hstop⟩ hr'
  have h' := run_invariant_of_step hstep ⟨h, hstop⟩ hr'
  have hleft := iterationsLeft_le h.2
  have hnonneg : 0 ≤ iterationsLeft cfg s' := by
    have := h'.1.2.le
    unfold iterationsLeft
    split <;> omega
  exact ⟨by omega, fun heq => sending_of_iterationsLeft h'.1.2 (by omega)⟩

end NetProg.Rtt
