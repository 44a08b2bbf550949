import NetProg.Shell.Dataflow

/-!
# Pipes of a fixed capacity

The leader waits for command `i` before it forks the reader of its output, so nobody empties a
pipe while it is written. `boundedStep` is `step` with pipes that hold `cap` bytes : a write
puts in the pipe what it has room for, and waits with the rest. Everything else is shared.

`neverDeadlocks_iff` says when a run is free of deadlock : the commands of each block but the
last one write together no more than `cap` bytes. The copies that an alternative makes, to its
own input and to the pipe of the next alternative, need no condition. They are copies of what
came through one pipe into two that are empty (`WithinCap`).
-/

namespace NetProg.Shell

open FdTable

/-! ## The system -/

/-- `pending` is what the write in progress has not put in its pipe. -/
structure BoundedState where
  core : State
  pending : List UInt8

/-- A step of `Label`, or a write that goes on. -/
inductive BoundedLabel where
  | call (l : Label)
  | resume
deriving DecidableEq, Repr

/-- The pipe behind a descriptor, if it has a reader. -/
def pipeBehind (leader : FdTable File) (p : Proc) (fd : ℕ) : Option ℕ :=
  match p.fds.get fd with
  | some (.writeEnd q) => if Open leader p.fds (.readEnd q) then some q else none
  | _ => none

/-- The pipe that the command writes to, in its next call or from its program. -/
def blockedOn (s : State) : Option ℕ :=
  match s.job with
  | .running _ (.write fd :: _) p => pipeBehind s.leader p (fd.eval p)
  | .running _ [] p => pipeBehind s.leader p 1
  | _ => none

/-- The write to a pipe that a label makes. -/
def nextWrite (s : State) : Label → Option (ℕ × List UInt8)
  | .syscall =>
    match s.job with
    | .running _ (.write fd :: _) p =>
      (pipeBehind s.leader p (fd.eval p)).map fun q => (q, p.pipeData)
    | _ => none
  | .write bytes =>
    match s.job with
    | .running _ [] p => (pipeBehind s.leader p 1).map fun q => (q, bytes)
    | _ => none
  | _ => none

/-- What a program has written. A call before `execvp` is not the program's. -/
def written (s : State) (bytes : List UInt8) : ℕ → List UInt8 :=
  match s.job with
  | .running i [] _ => Function.update s.out i (s.out i ++ bytes)
  | _ => s.out

/-- Bytes of the write in progress arrive in the pipe. -/
def deliver (s : State) (q : ℕ) (bytes : List UInt8) : State :=
  { s with
    kernel := { s.kernel with
      pipes := Function.update s.kernel.pipes q (s.kernel.pipes q ++ bytes) }
    out := written s bytes }

/-- The call of the command returns. -/
def Job.finishCall : Job → Job
  | .running i (_ :: code) p => .running i code p
  | j => j

/-- `write` puts in the pipe what it has room for, and returns if that is all. -/
def writeSome (cap : ℕ) (s : State) (q : ℕ) (bytes : List UInt8) : BoundedState :=
  let room := cap - (s.kernel.pipes q).length
  if bytes.length ≤ room then ⟨{ deliver s q bytes with job := s.job.finishCall }, []⟩
  else ⟨deliver s q (bytes.take room), bytes.drop room⟩

/-- One step with pipes of capacity `cap`. While a write is in progress, the command does
nothing else. -/
def boundedStep (cap : ℕ) (cmds : List Command) (pipeFd : PipeFds) (s : BoundedState) :
    BoundedLabel → Option BoundedState
  | .call l =>
    if s.pending ≠ [] ∧ l ≠ .leader then none
    else
      match nextWrite s.core l with
      | some (q, bytes) => some (writeSome cap s.core q bytes)
      | none => (step cmds pipeFd s.core l).map fun core => ⟨core, s.pending⟩
  | .resume =>
    if s.pending = [] then none
    else
      match blockedOn s.core with
      | some q =>
        if (s.core.kernel.pipes q).length < cap then some (writeSome cap s.core q s.pending)
        else none
      | none => some ⟨{ s.core with job := .zombie }, []⟩

/-- Run a pipeline with pipes of capacity `cap`. -/
def executeCmdPipeBounded (cap : ℕ) (cmds : List Command) (t : FdTable File)
    (ls : List BoundedLabel) : Option BoundedState :=
  run (boundedStep cap cmds (createPipes t (cmds.length - 1)).2) ⟨init cmds.length t, []⟩ ls

/-- The command that the leader waits for is blocked in a write to a full pipe, and nobody who
could read that pipe can do anything. The leader, which does not read, can at most go on to
its `wait`. -/
structure Deadlocked (cap : ℕ) (cmds : List Command) (pipeFd : PipeFds) (s : BoundedState) :
    Prop where
  blocked : s.pending ≠ [] ∧ ∃ q, blockedOn s.core = some q ∧
    cap ≤ (s.core.kernel.pipes q).length
  alone : ∀ l s', boundedStep cap cmds pipeFd s l = some s' → l = .call .leader

/-- What the block of a command has written so far, with the next write of its program, fits in
one pipe, unless it is the last block. -/
def Fits (cap : ℕ) (bs : List PipeCount) (s : BoundedState) : BoundedLabel → Prop
  | .call (.write bytes) => ∀ i p, s.core.job = .running i [] p →
    last bs i + 1 < (commands bs).length →
      (gathered s.core.out (start bs i) (i + 1)).length + bytes.length ≤ cap
  | _ => True

/-- `Fits` is checked on the program that writes. -/
instance decidableFits (cap : ℕ) (bs : List PipeCount) (s : BoundedState) :
    ∀ l, Decidable (Fits cap bs s l)
  | .call (.write bytes) =>
    match h : s.core.job with
    | .running i [] p => decidable_of_iff (last bs i + 1 < (commands bs).length →
        (gathered s.core.out (start bs i) (i + 1)).length + bytes.length ≤ cap)
          (by simp [Fits, h])
    | .running _ (_ :: _) _ | .none | .zombie => .isTrue (by simp [Fits, h])
  | .call .leader | .call .syscall | .call (.read _) | .call (.readShell _) | .call .readEof
  | .call .exit | .resume => .isTrue trivial

variable {cap : ℕ} {cmds : List Command} {pipeFd : PipeFds} {bs : List PipeCount} {i : ℕ}

/-- A write in progress that finds its pipe full is a deadlock. -/
theorem deadlocked_of_full {s : BoundedState} {q : ℕ} (hpending : s.pending ≠ [])
    (hq : blockedOn s.core = some q) (hfull : cap ≤ (s.core.kernel.pipes q).length) :
    Deadlocked cap cmds pipeFd s := by
  refine ⟨⟨hpending, q, hq, hfull⟩, fun l s' hs => ?_⟩
  cases l with
  | call l =>
    by_contra hne
    have hl : l ≠ .leader := fun h => hne (by rw [h])
    simp [boundedStep, hpending, hl] at hs
  | resume => simp [boundedStep, hpending, hq, not_lt.2 hfull] at hs

/-- Once the leader waits, nothing moves any more. -/
theorem Deadlocked.stuck {s : BoundedState} (h : Deadlocked cap cmds pipeFd s)
    (hpc : s.core.pc = .waiting i) (l : BoundedLabel) : boundedStep cap cmds pipeFd s l = none := by
  obtain ⟨⟨hpending, q, hq, -⟩, halone⟩ := h
  cases hs : boundedStep cap cmds pipeFd s l with
  | none => rfl
  | some s' =>
    obtain rfl := halone l s' hs
    -- the command that is blocked has not ended
    obtain ⟨j, code, p, hjob⟩ : ∃ j code p, s.core.job = .running j code p := by
      cases hjob : s.core.job with
      | running j code p => exact ⟨j, code, p, rfl⟩
      | _ => simp [blockedOn, hjob] at hq
    simp [boundedStep, nextWrite, step, leaderStep, hpc, hjob] at hs

/-! ## Writes that fit -/

theorem pipeBehind_eq_some {leader : FdTable File} {p : Proc} {fd q : ℕ} :
    pipeBehind leader p fd = some q ↔
      p.fds.get fd = some (.writeEnd q) ∧ Open leader p.fds (.readEnd q) := by
  unfold pipeBehind
  split
  · rename_i q' hget
    rw [hget]
    split_ifs with hopen
    · simp only [Option.some.injEq, File.writeEnd.injEq]
      exact ⟨fun h => ⟨h, h ▸ hopen⟩, fun h => h.1⟩
    · simp only [Option.some.injEq, File.writeEnd.injEq, false_iff, not_and]
      rintro rfl
      exact hopen
  · rename_i hget
    simp only [reduceCtorEq, false_iff, not_and]
    exact fun h => absurd h (hget q)

section Step

variable {s s' : State} {l : Label} {q : ℕ} {bytes : List UInt8}

/-- The command whose write a label makes. -/
theorem nextWrite_eq_some (h : nextWrite s l = some (q, bytes)) :
    (∃ i fd code p, l = .syscall ∧ s.job = .running i (.write fd :: code) p ∧
        pipeBehind s.leader p (fd.eval p) = some q ∧ bytes = p.pipeData) ∨
      ∃ i p, l = .write bytes ∧ s.job = .running i [] p ∧ pipeBehind s.leader p 1 = some q := by
  unfold nextWrite at h
  split at h
  · split at h
    · rename_i i fd code p hjob
      obtain ⟨q', hq, heq⟩ := Option.map_eq_some_iff.1 h
      cases heq
      exact Or.inl ⟨i, fd, code, p, rfl, hjob, hq, rfl⟩
    · cases h
  · split at h
    · rename_i i p hjob
      obtain ⟨q', hq, heq⟩ := Option.map_eq_some_iff.1 h
      cases heq
      exact Or.inr ⟨i, p, rfl, hjob, hq⟩
    · cases h
  · cases h

/-- A write that fits is a step of the system without bounds. -/
theorem step_of_nextWrite (h : nextWrite s l = some (q, bytes)) :
    step cmds pipeFd s l = some { deliver s q bytes with job := s.job.finishCall } := by
  rcases nextWrite_eq_some h with ⟨i, fd, code, p, rfl, hjob, hq, rfl⟩ | ⟨i, p, rfl, hjob, hq⟩
  · obtain ⟨hget, hopen⟩ := pipeBehind_eq_some.1 hq
    have hexec := exec_write (k := s.kernel) hget hopen
    simp [step, syscallStep, hjob, hexec, deliver, written, Job.finishCall]
  · obtain ⟨hget, hopen⟩ := pipeBehind_eq_some.1 hq
    simp [step, jobStep, programStep, hjob, hget, hopen, deliver, written, Job.finishCall]

theorem length_update_le {pipes : ℕ → List UInt8} {r : ℕ} {v : List UInt8}
    (hv : v.length ≤ (pipes r).length) (q : ℕ) :
    (Function.update pipes r v q).length ≤ (pipes q).length := by
  by_cases hqr : q = r
  · subst hqr
    rwa [Function.update_self]
  · rw [Function.update_of_ne hqr]

/-- A call other than a write to a pipe makes no pipe longer. -/
theorem length_pipes_exec {leader : FdTable File} {c : Syscall} {p p' : Proc} {k k' : Kernel}
    (hc : c.exec leader p k = .done (p', k')) (hw : ∀ fd, c ≠ .write fd) (q : ℕ) :
    (k'.pipes q).length ≤ (k.pipes q).length := by
  cases c with
  | write fd => exact absurd rfl (hw fd)
  | readAll fd =>
    simp only [Syscall.exec] at hc
    split at hc
    · split_ifs at hc
      cases hc
      exact length_update_le (Nat.zero_le _) q
    · cases hc
  | pipe =>
    cases hc
    exact length_update_le (Nat.zero_le _) q
  | dup2 fd new =>
    simp only [Syscall.exec] at hc
    split at hc <;> cases hc
    exact le_rfl
  | close | execvp =>
    cases hc
    exact le_rfl

/-- The program calls nothing from the code of the command any more, and only a write to a pipe
makes a pipe longer. -/
theorem jobStep_cases (hs : jobStep s l = some s') :
    (∃ i p, s.job = .running i [] p) ∧ (s'.job = s.job ∨ s'.job = .zombie) ∧
      (nextWrite s l = none → ∀ q, (s'.kernel.pipes q).length ≤ (s.kernel.pipes q).length) := by
  unfold jobStep at hs
  split at hs
  · rename_i i p hjob
    refine ⟨⟨i, p, hjob⟩, ?_⟩
    cases l with
    | leader | syscall => cases hs
    | exit =>
      obtain rfl := Option.some.inj hs
      exact ⟨Or.inr rfl, fun _ _ => le_rfl⟩
    | read n =>
      simp only [programStep] at hs
      split at hs
      · split_ifs at hs
        obtain rfl := Option.some.inj hs
        exact ⟨Or.inl rfl, fun _ => length_update_le (by rw [List.length_drop]; omega)⟩
      · cases hs
    | readShell bytes =>
      simp only [programStep] at hs
      split at hs
      · obtain rfl := Option.some.inj hs
        exact ⟨Or.inl rfl, fun _ _ => le_rfl⟩
      · cases hs
    | readEof =>
      simp only [programStep] at hs
      split at hs
      · split_ifs at hs
        obtain rfl := Option.some.inj hs
        exact ⟨Or.inl rfl, fun _ _ => le_rfl⟩
      · cases hs
    | write bytes =>
      simp only [programStep] at hs
      split at hs
      · obtain rfl := Option.some.inj hs
        exact ⟨Or.inl rfl, fun _ _ => le_rfl⟩
      · rename_i q' hget
        split_ifs at hs with hopen
        · obtain rfl := Option.some.inj hs
          have hq : pipeBehind s.leader p 1 = some q' := pipeBehind_eq_some.2 ⟨hget, hopen⟩
          exact ⟨Or.inl rfl, fun h => by simp [nextWrite, hjob, hq] at h⟩
        · obtain rfl := Option.some.inj hs
          exact ⟨Or.inr rfl, fun _ _ => le_rfl⟩
      · cases hs
  · cases hs

/-- Any other step makes no pipe longer. -/
theorem length_pipes_of_nextWrite (h : nextWrite s l = none)
    (hs : step cmds pipeFd s l = some s') (q : ℕ) :
    (s'.kernel.pipes q).length ≤ (s.kernel.pipes q).length := by
  cases l with
  | leader =>
    simp only [step, leaderStep] at hs
    split at hs
    · split at hs <;> cases hs <;> exact le_rfl
    · cases hs
      exact le_rfl
    · cases hs
      exact le_rfl
    · split at hs <;> cases hs
      exact le_rfl
    · cases hs
  | syscall =>
    simp only [step, syscallStep] at hs
    split at hs
    · rename_i i c code p hjob
      split at hs
      · cases hs
      · cases hs
        exact le_rfl
      · rename_i p' k' hexec
        cases hs
        refine length_pipes_exec hexec (fun fd hfd => ?_) q
        -- a write that returns goes to a pipe with a reader
        subst hfd
        simp only [Syscall.exec] at hexec
        split at hexec
        · rename_i q' hget
          split_ifs at hexec with hopen
          have hq : pipeBehind s.leader p (fd.eval p) = some q' := pipeBehind_eq_some.2 ⟨hget, hopen⟩
          simp [nextWrite, hjob, hq] at h
        · cases hexec
    · cases hs
  | read | readShell | readEof | write | exit => exact (jobStep_cases hs).2.2 h q

end Step

/-! ## What the code of a command writes -/

/-- Neither empties a pipe nor makes one. -/
def Syscall.Quiet : Syscall → Prop
  | .readAll _ | .pipe => False
  | .write _ | .close _ | .dup2 _ _ | .execvp _ => True

/-- Behind a write, no pipe is emptied or made. -/
def Tame : List Syscall → Prop
  | [] => True
  | .write _ :: code => ∀ c ∈ code, c.Quiet
  | _ :: code => Tame code

theorem tame_of_quiet {code : List Syscall} (h : ∀ c ∈ code, c.Quiet) : Tame code := by
  induction code with
  | nil => trivial
  | cons c code ih =>
    have hcode := (List.forall_mem_cons.1 h).2
    cases c with
    | write fd => exact hcode
    | readAll | pipe | close | dup2 | execvp => exact ih hcode

theorem Tame.tail {c : Syscall} {code : List Syscall} (h : Tame (c :: code)) : Tame code := by
  cases c with
  | write fd => exact tame_of_quiet h
  | readAll | pipe | close | dup2 | execvp => exact h

theorem quiet_closeAllFdExcept (n : ℕ) (exceptFd : Option ℕ) (isRead : Bool) :
    ∀ c ∈ closeAllFdExcept pipeFd n exceptFd isRead, c.Quiet := by
  intro c hc
  obtain ⟨fd, -, rfl⟩ := List.mem_map.1 hc
  trivial

theorem quiet_dup2Code (fd : Option ℕ) (new : ℕ) : ∀ c ∈ dup2Code fd new, c.Quiet := by
  intro c hc
  cases fd with
  | none => cases hc
  | some fd =>
    rw [List.mem_singleton.1 hc]
    trivial

theorem tame_childCode (count i : ℕ) (cmd : Command) : Tame (childCode pipeFd count i cmd) := by
  have hwrite : ∀ c ∈ writeCode pipeFd count i cmd ++ [Syscall.execvp i], Syscall.Quiet c := by
    unfold writeCode
    refine List.forall_mem_append.2 ⟨List.forall_mem_append.2 ⟨?_, ?_⟩, ?_⟩
    · exact quiet_closeAllFdExcept _ _ _
    · exact quiet_dup2Code _ _
    · simp [Syscall.Quiet]
  have hread : ∀ readPipe : Option ℕ, ∀ c ∈ (if i ≠ 0 then
      closeAllFdExcept pipeFd (count - 1) readPipe true ++ dup2Code readPipe 0
      else closeAllFdExcept pipeFd (count - 1) none true), c.Quiet := by
    intro readPipe
    split
    · exact List.forall_mem_append.2 ⟨quiet_closeAllFdExcept _ _ _, quiet_dup2Code _ _⟩
    · exact quiet_closeAllFdExcept _ _ _
  have hrest := fun readPipe => List.forall_mem_append.2 ⟨hread readPipe, hwrite⟩
  unfold childCode readCode
  by_cases htees : Tees count i cmd
  · simp only [if_pos htees, List.append_assoc]
    -- the pipe is read and the copy made before the first write
    refine List.forall_mem_append.2 ⟨?_, hrest none⟩
    simp [Syscall.Quiet]
  · simp only [if_neg htees, List.nil_append]
    exact tame_of_quiet (hrest _)

section Runs

variable {leader : FdTable File} {p p' : Proc} {k k' : Kernel}

theorem length_pipes_quiet {c : Syscall} (hc : c.exec leader p k = .done (p', k'))
    (hq : c.Quiet) (q : ℕ) : (k.pipes q).length ≤ (k'.pipes q).length := by
  cases c with
  | readAll | pipe => exact hq.elim
  | write fd =>
    simp only [Syscall.exec] at hc
    split at hc
    · rename_i q' hget
      split_ifs at hc
      cases hc
      by_cases hqq : q = q'
      · subst hqq
        simp only [Function.update_self, List.length_append]
        omega
      · simp only [Function.update_of_ne hqq, le_refl]
    · cases hc
  | dup2 fd new =>
    simp only [Syscall.exec] at hc
    split at hc <;> cases hc
    exact le_rfl
  | close | execvp =>
    cases hc
    exact le_rfl

/-- Behind the first write, pipes only grow. -/
theorem Runs.length_pipes_le {code : List Syscall} (h : Runs leader code p k p' k')
    (hq : ∀ c ∈ code, c.Quiet) (q : ℕ) : (k.pipes q).length ≤ (k'.pipes q).length := by
  induction code generalizing p k with
  | nil =>
    obtain ⟨-, rfl⟩ := h
    exact le_rfl
  | cons c code ih =>
    obtain ⟨p₁, k₁, hc, h⟩ := h
    obtain ⟨hquiet, hq⟩ := List.forall_mem_cons.1 hq
    exact (length_pipes_quiet hc hquiet q).trans (ih h hq)

/-- Code has one result. -/
theorem Runs.unique {code : List Syscall} {p₁ p₂ : Proc} {k₁ k₂ : Kernel}
    (h₁ : Runs leader code p k p₁ k₁) (h₂ : Runs leader code p k p₂ k₂) : k₁ = k₂ := by
  induction code generalizing p k with
  | nil => exact h₁.2.trans h₂.2.symm
  | cons c code ih =>
    obtain ⟨q₁, l₁, hc₁, h₁⟩ := h₁
    obtain ⟨q₂, l₂, hc₂, h₂⟩ := h₂
    obtain ⟨rfl, rfl⟩ := Prod.mk.inj (Outcome.done.inj (hc₁.symm.trans hc₂))
    exact ih h₁ h₂

end Runs

/-! ## The invariant -/

/-- Whatever the leader closes, the code of the command leaves no more than `cap` bytes in a
pipe. -/
def JobFits (cap : ℕ) (s : State) : Prop :=
  ∀ i code p, s.job = .running i code p → Tame code ∧ ∀ leader', Below leader' s.leader →
    ∀ p' k', Runs leader' code p s.kernel p' k' → ∀ q, (k'.pipes q).length ≤ cap

/-- Every write so far has returned, and no pipe is over its capacity. -/
structure WithinCap (cap : ℕ) (bs : List PipeCount) (pipeFd : PipeFds) (s : BoundedState) :
    Prop where
  inv : Inv bs pipeFd s.core
  pending : s.pending = []
  pipes : ∀ q, (s.core.kernel.pipes q).length ≤ cap
  job : JobFits cap s.core

variable {s s' : State}

/-- The copies that an alternative makes are as long as what came through the pipe. -/
theorem Fed.length_pipes {k k' : Kernel} {f : File} {out : ℕ → List UInt8} (h : Fed bs i k k' f)
    (hflow : Flow bs i out k.pipes) (hi : i < (commands bs).length)
    (hread : (k'.pipes (i - 1)).length ≤ (k.pipes (i - 1)).length)
    (hpipes : ∀ q, (k.pipes q).length ≤ cap) (q : ℕ) : (k'.pipes q).length ≤ cap := by
  cases h with
  | shell hi0 hpipes' hk =>
    rw [hpipes']
    exact hpipes q
  | upstream hi0 hlast hpipes' hk =>
    rw [hpipes']
    exact hpipes q
  | copy hi0 hlast hk htemp hnext hother =>
    have hle := le_last hi
    have hlt := last_lt hi
    have hempty : k.pipes i = [] := by
      rw [hflow.inner i (by omega) (by omega) hlast, if_neg (by omega)]
    by_cases hqi : q = i
    · rw [hqi, hnext, hempty, List.nil_append]
      exact hpipes (i - 1)
    · by_cases hqc : q = k.count
      · rw [hqc, htemp]
        exact hpipes (i - 1)
      · by_cases hqu : q = i - 1
        · rw [hqu]
          exact hread.trans (hpipes (i - 1))
        · rw [hother q hqu hqi hqc]
          exact hpipes q

theorem JobFits.below {leader : FdTable File} {pc : LeaderPc} (h : JobFits cap s)
    (hb : Below leader s.leader) : JobFits cap { s with leader := leader, pc := pc } := by
  intro i code p hjob
  obtain ⟨htame, hruns⟩ := h i code p hjob
  exact ⟨htame, fun leader' hb' => hruns leader' (hb'.trans hb)⟩

theorem jobFits_leader (hfirst : last bs 0 = 0) (hn : Numbers pipeFd ((commands bs).length - 1))
    (hi : Inv bs pipeFd s) (hp : ∀ q, (s.kernel.pipes q).length ≤ cap) (hj : JobFits cap s)
    (hs : leaderStep (commands bs) pipeFd s = some s') : JobFits cap s' := by
  unfold leaderStep at hs
  unfold Inv at hi
  cases hpc : s.pc with
  | fork i =>
    simp only [hpc] at hi hs
    obtain ⟨-, hw, hjob, -, hflow, -, hcount⟩ := hi
    split at hs
    · rename_i cmd hcmd
      obtain rfl := Option.some.inj hs
      have hlt : i < (commands bs).length := (List.getElem?_eq_some_iff.1 hcmd).1
      rintro j code p hrunning
      obtain ⟨rfl, rfl, rfl⟩ := Job.running.inj hrunning
      refine ⟨tame_childCode _ _ _, fun leader' hb p' k' hruns => ?_⟩
      have hend : i ≠ 0 → ¬leader'.Holds (.writeEnd (i - 1)) := by
        intro hi0 hl
        obtain ⟨fd, hfd⟩ := holds_iff.1 (hb _ hl)
        have := (hw.of_write fd _ hfd).1
        omega
      obtain ⟨p₁, k₁, f, hruns₁, -, -, hfed, hread⟩ := childCode_runs
        (p := ⟨s.leader, [], (0, 0)⟩) (k := s.kernel) hfirst hlt hcmd hn hw hcount hend
      rw [hruns.unique hruns₁]
      exact hfed.length_pipes hflow hlt hread hp
    · obtain rfl := Option.some.inj hs
      intro j code p hrunning
      simp [hjob] at hrunning
  | closeWrite i =>
    simp only [hpc] at hs
    obtain rfl := Option.some.inj hs
    refine hj.below ?_
    split
    · exact below_close _ _
    · exact fun f hf => hf
  | closeRead i =>
    simp only [hpc] at hs
    obtain rfl := Option.some.inj hs
    refine hj.below ?_
    split
    · exact below_close _ _
    · exact fun f hf => hf
  | waiting i =>
    simp only [hpc] at hs
    split at hs
    · obtain rfl := Option.some.inj hs
      intro j code p hrunning
      cases hrunning
    · cases hs
  | exited =>
    simp only [hpc] at hs
    cases hs

/-- A call of the command brings its code nearer to the end. -/
theorem jobFits_syscall (hi : Inv bs pipeFd s) (hj : JobFits cap s)
    (hs : syscallStep s = some s') : JobFits cap s' := by
  unfold syscallStep at hs
  cases hjob : s.job with
  | none =>
    simp only [hjob] at hs
    cases hs
  | zombie =>
    simp only [hjob] at hs
    cases hs
  | running i code p =>
    obtain ⟨htame, hbound⟩ := hj i code p hjob
    cases code with
    | nil =>
      simp only [hjob] at hs
      cases hs
    | cons c code =>
      obtain ⟨⟨p₁, k₁⟩, hc⟩ := hi.calls hjob
      simp only [hjob, hc] at hs
      obtain rfl := Option.some.inj hs
      obtain ⟨j, w, r, hforked, -⟩ := hi.forked (by simp [hjob])
      have hinv := hforked.job
      unfold JobInv at hinv
      simp only [hjob] at hinv
      rintro i' code' p' hrunning
      obtain ⟨rfl, rfl, rfl⟩ := Job.running.inj hrunning
      refine ⟨htame.tail, fun leader' hb p₂ k₂ hruns => ?_⟩
      obtain ⟨-, -, ⟨q', l', hc', -⟩, -⟩ := hinv.2 leader' hb
      have heq := exec_agree hc hc'
      obtain ⟨rfl, rfl⟩ := Prod.mk.inj heq
      exact hbound leader' hb p₂ k₂ ⟨_, _, hc', hruns⟩

theorem jobFits_program {l : Label} (hs : jobStep s l = some s')
    (hp' : ∀ q, (s'.kernel.pipes q).length ≤ cap) : JobFits cap s' := by
  obtain ⟨⟨i, p, hjob⟩, hsame | hzombie, -⟩ := jobStep_cases hs
  · intro j code p' hrunning
    rw [hsame, hjob] at hrunning
    obtain ⟨rfl, rfl, rfl⟩ := Job.running.inj hrunning
    refine ⟨trivial, fun leader' hb p₁ k₁ hruns q => ?_⟩
    obtain ⟨-, rfl⟩ := hruns
    exact hp' q
  · intro j code p' hrunning
    rw [hzombie] at hrunning
    cases hrunning

theorem jobFits_step {l : Label} (hfirst : last bs 0 = 0)
    (hn : Numbers pipeFd ((commands bs).length - 1)) (hi : Inv bs pipeFd s)
    (hp : ∀ q, (s.kernel.pipes q).length ≤ cap) (hj : JobFits cap s)
    (hs : step (commands bs) pipeFd s l = some s')
    (hp' : ∀ q, (s'.kernel.pipes q).length ≤ cap) : JobFits cap s' := by
  cases l with
  | leader => exact jobFits_leader hfirst hn hi hp hj hs
  | syscall => exact jobFits_syscall hi hj hs
  | read n | readShell bytes | readEof | write bytes | exit => exact jobFits_program hs hp'

/-! ## Steps -/

/-- A write before `execvp` fits in its pipe. -/
theorem WithinCap.fits_call {s : BoundedState} {fd : Operand} {code : List Syscall} {p : Proc}
    {q : ℕ} (h : WithinCap cap bs pipeFd s) (hjob : s.core.job = .running i (.write fd :: code) p)
    (hq : pipeBehind s.core.leader p (fd.eval p) = some q) :
    (s.core.kernel.pipes q).length + p.pipeData.length ≤ cap := by
  obtain ⟨htame, hbound⟩ := h.job i _ p hjob
  obtain ⟨j, w, r, hforked, -⟩ := h.inv.forked (by simp [hjob])
  have hinv := hforked.job
  unfold JobInv at hinv
  simp only [hjob] at hinv
  obtain ⟨p', k', hruns, -⟩ := hinv.2 s.core.leader fun _ hf => hf
  have hle := hbound s.core.leader (fun _ hf => hf) p' k' hruns q
  obtain ⟨p₁, k₁, hc, hrest⟩ := hruns
  obtain ⟨hget, hopen⟩ := pipeBehind_eq_some.1 hq
  rw [exec_write hget hopen] at hc
  obtain ⟨rfl, rfl⟩ := Prod.mk.inj (Outcome.done.inj hc)
  have hgrow := hrest.length_pipes_le htame q
  simp only [Function.update_self, List.length_append] at hgrow
  exact hgrow.trans hle

/-- The pipe behind a block that is not the last has what its commands have written. -/
theorem WithinCap.program {s : BoundedState} {p : Proc} {q : ℕ} (h : WithinCap cap bs pipeFd s)
    (hjob : s.core.job = .running i [] p) (hq : pipeBehind s.core.leader p 1 = some q) :
    q = last bs i ∧ last bs i + 1 < (commands bs).length ∧
      s.core.kernel.pipes q = gathered s.core.out (start bs i) (i + 1) := by
  obtain ⟨hget, -⟩ := pipeBehind_eq_some.1 hq
  obtain ⟨f, hwired, -, -, -⟩ := h.inv.program hjob
  obtain ⟨j, w, r, hforked, -⟩ := h.inv.forked (by simp [hjob])
  obtain ⟨rfl, hl⟩ := hforked.job.launched hjob
  have hlt := hforked.lt
  have hout := hwired.stdout
  rw [hget] at hout
  cases hpipe : outPipe bs i with
  | none => simp [hpipe] at hout
  | some e =>
    obtain ⟨hne, rfl⟩ := mem_outPipe.1 hpipe
    simp only [hpipe, Option.map_some, Option.getD_some, Option.some.injEq,
      File.writeEnd.injEq] at hout
    have hle := le_last hlt
    have hll := last_lt hlt
    have hends : last bs (last bs i) = last bs i :=
      last_eq hlt (by have := start_le hlt; omega) le_rfl
    have hstarts : start bs (last bs i) = start bs i :=
      start_eq hlt (by have := start_le hlt; omega) le_rfl
    subst hout
    exact ⟨rfl, by omega, by rw [hl.flow.outer _ (by omega) (by omega) hends, hstarts]⟩

/-- A write that fits returns at once. -/
theorem writeSome_of_le {s : State} {q : ℕ} {bytes : List UInt8}
    (h : (s.kernel.pipes q).length + bytes.length ≤ cap) :
    writeSome cap s q bytes = ⟨{ deliver s q bytes with job := s.job.finishCall }, []⟩ := by
  unfold writeSome
  exact if_pos (by omega)

/-- A step that fits is a step of the system without bounds. -/
theorem WithinCap.step_of_fits {s s' : BoundedState} {l : BoundedLabel}
    (h : WithinCap cap bs pipeFd s) (hfits : Fits cap bs s l)
    (hs : boundedStep cap (commands bs) pipeFd s l = some s') :
    s'.pending = [] ∧ (∀ q, (s'.core.kernel.pipes q).length ≤ cap) ∧
      ∃ l', step (commands bs) pipeFd s.core l' = some s'.core := by
  cases l with
  | resume => simp [boundedStep, h.pending] at hs
  | call l =>
    simp only [boundedStep, h.pending, ne_eq, not_true_eq_false, false_and, if_false] at hs
    cases hw : nextWrite s.core l with
    | none =>
      simp only [hw] at hs
      obtain ⟨core, hcore, rfl⟩ := Option.map_eq_some_iff.1 hs
      exact ⟨rfl, fun q => (length_pipes_of_nextWrite hw hcore q).trans (h.pipes q), l, hcore⟩
    | some write =>
      obtain ⟨q, bytes⟩ := write
      simp only [hw] at hs
      have hroom : (s.core.kernel.pipes q).length + bytes.length ≤ cap := by
        rcases nextWrite_eq_some hw with ⟨i, fd, code, p, rfl, hjob, hq, rfl⟩ | ⟨i, p, rfl, hjob, hq⟩
        · exact h.fits_call hjob hq
        · obtain ⟨-, hlast, hpipe⟩ := h.program hjob hq
          rw [hpipe]
          exact hfits i p hjob hlast
      rw [writeSome_of_le hroom] at hs
      obtain rfl := Option.some.inj hs
      refine ⟨rfl, fun r => ?_, l, step_of_nextWrite hw⟩
      by_cases hrq : r = q
      · subst hrq
        simpa [deliver] using hroom
      · simpa [deliver, Function.update_of_ne hrq] using h.pipes r

theorem withinCap_step {s s' : BoundedState} {l : BoundedLabel} (hfirst : last bs 0 = 0)
    (hn : Numbers pipeFd ((commands bs).length - 1)) (h : WithinCap cap bs pipeFd s)
    (hfits : Fits cap bs s l) (hs : boundedStep cap (commands bs) pipeFd s l = some s') :
    WithinCap cap bs pipeFd s' := by
  obtain ⟨hpending, hpipes, l', hcore⟩ := h.step_of_fits hfits hs
  exact ⟨step_inv hfirst hn l' h.inv hcore, hpending, hpipes,
    jobFits_step hfirst hn h.inv h.pipes h.job hcore hpipes⟩

/-- A write that does not fit is a deadlock. -/
theorem WithinCap.deadlocked {s s' : BoundedState} {l : BoundedLabel}
    (h : WithinCap cap bs pipeFd s) (hfits : ¬Fits cap bs s l)
    (hs : boundedStep cap (commands bs) pipeFd s l = some s') :
    Deadlocked cap (commands bs) pipeFd s' := by
  obtain ⟨bytes, rfl, i, p, hjob, hlast, hover⟩ : ∃ bytes, l = .call (.write bytes) ∧ ∃ i p,
      s.core.job = .running i [] p ∧ last bs i + 1 < (commands bs).length ∧
      ¬(gathered s.core.out (start bs i) (i + 1)).length + bytes.length ≤ cap := by
    cases l with
    | resume => exact absurd trivial hfits
    | call l =>
      cases l with
      | write bytes => simpa [Fits] using hfits
      | leader | syscall | read | readShell | readEof | exit => exact absurd trivial hfits
  -- the pipe behind the block has a reader, the leader
  obtain ⟨f, hwired, -, hread, -⟩ := h.inv.program hjob
  have hpipe : outPipe bs i = some (last bs i) := mem_outPipe.2 ⟨by omega, rfl⟩
  have hget : p.fds.get 1 = some (.writeEnd (last bs i)) := by
    rw [hwired.stdout, hpipe]
    rfl
  have hq : pipeBehind s.core.leader p 1 = some (last bs i) :=
    pipeBehind_eq_some.2 ⟨hget, .inl (hread _ hpipe)⟩
  obtain ⟨-, -, hcontent⟩ := h.program hjob hq
  have hcap := h.pipes (last bs i)
  have hwrite : nextWrite s.core (.write bytes) = some (last bs i, bytes) := by
    simp [nextWrite, hjob, hq]
  rw [hcontent] at hcap
  simp only [boundedStep, h.pending, hwrite, ne_eq, not_true_eq_false, false_and, if_false,
    Option.some.injEq] at hs
  unfold writeSome at hs
  rw [if_neg (by rw [hcontent]; omega)] at hs
  subst hs
  refine deadlocked_of_full (q := last bs i) ?_ ?_ ?_
  · intro hnil
    rw [hcontent] at hnil
    have := List.drop_eq_nil_iff.1 hnil
    omega
  · simp [blockedOn, deliver, hjob, hq]
  · simp only [deliver, Function.update_self, List.length_append, List.length_take, hcontent]
    omega

theorem WithinCap.not_deadlocked {s : BoundedState} (h : WithinCap cap bs pipeFd s) :
    ¬Deadlocked cap cmds pipeFd s := fun hd => hd.blocked.1 h.pending

theorem withinCap_init (cap : ℕ) (sh : ShellFds) :
    WithinCap cap bs (createPipes sh.table ((commands bs).length - 1)).2
      ⟨init (commands bs).length sh.table, []⟩ where
  inv := inv_init sh
  pending := rfl
  pipes _ := Nat.zero_le _
  job i code p hjob := by cases hjob

/-! ## The result -/

/-- With pipes of any capacity, no state of a run is a deadlock if and only if the commands of
each block but the last one never write more than fits in one pipe. -/
theorem neverDeadlocks_iff (cap : ℕ) (bs : List PipeCount) (sh : ShellFds)
    {ls : List BoundedLabel}
    (hr : (executeCmdPipeBounded cap (commands (.single :: bs)) sh.table ls).isSome) :
    Along (boundedStep cap (commands (.single :: bs))
        (createPipes sh.table ((commands (.single :: bs)).length - 1)).2)
      (fun s => ¬Deadlocked cap (commands (.single :: bs))
        (createPipes sh.table ((commands (.single :: bs)).length - 1)).2 s)
      ⟨init (commands (.single :: bs)).length sh.table, []⟩ ls ↔
    StepsMeet (boundedStep cap (commands (.single :: bs))
        (createPipes sh.table ((commands (.single :: bs)).length - 1)).2)
      (Fits cap (.single :: bs)) ⟨init (commands (.single :: bs)).length sh.table, []⟩ ls := by
  have hn := (createPipes_wired sh ((commands (.single :: bs)).length - 1)).numbers
  exact along_iff_stepsMeet (I := WithinCap cap (.single :: bs) _) (fun _ h => h.not_deadlocked)
    (fun _ _ _ h hfits hs => withinCap_step rfl hn h hfits hs)
    (fun _ _ _ h hfits hs hd => hd (h.deadlocked hfits hs)) (withinCap_init cap sh) hr

/-- One command in front of another writes three bytes to a pipe that holds two. -/
def overfullRun : List BoundedLabel :=
  [.call .leader, .call .leader, .call .leader, .call .syscall, .call .syscall, .call .syscall,
    .call (.write [1, 2, 3])]

/-- The leader waits for the first command, which waits for the second one to be forked. -/
theorem deadlocked_overfull : ¬∀ ls : List BoundedLabel,
    (executeCmdPipeBounded 2 (commands [.single, .single]) plainShell.table ls).isSome →
    Along (boundedStep 2 (commands [.single, .single]) (createPipes plainShell.table 1).2)
      (fun s => ¬Deadlocked 2 (commands [.single, .single]) (createPipes plainShell.table 1).2 s)
      ⟨init 2 plainShell.table, []⟩ ls := by
  intro h
  obtain ⟨s, hs, hstate⟩ := Option.map_eq_some_iff.1 (show
    (executeCmdPipeBounded 2 (commands [.single, .single]) plainShell.table overfullRun).map
      (fun s => (s.core.pc, s.pending, blockedOn s.core, (s.core.kernel.pipes 0).length)) =
      some (.waiting 0, [3], some 0, 2) by decide +kernel)
  simp only [Prod.mk.injEq] at hstate
  obtain ⟨-, hpending, hq, hlen⟩ := hstate
  exact (h overfullRun (by rw [hs]; rfl)).last hs
    (deadlocked_of_full (by simp [hpending]) hq hlen.ge)

/-- Two alternatives copy and write what fits in pipes of four bytes. -/
theorem neverDeadlocks_double :
    (executeCmdPipeBounded 4 (commands [.single, .double]) plainShell.table
      (doubleRun.map .call)).isSome ∧
    Along (boundedStep 4 (commands [.single, .double]) (createPipes plainShell.table 2).2)
      (fun s => ¬Deadlocked 4 (commands [.single, .double]) (createPipes plainShell.table 2).2 s)
      ⟨init 3 plainShell.table, []⟩ (doubleRun.map .call) := by
  have hrun : (executeCmdPipeBounded 4 (commands [.single, .double]) plainShell.table
      (doubleRun.map .call)).isSome := by decide +kernel
  exact ⟨hrun, (neverDeadlocks_iff 4 [.double] plainShell hrun).2 (by decide +kernel)⟩

end NetProg.Shell
