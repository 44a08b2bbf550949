import NetProg.Shell.Wiring

/-!
# The data flow of a pipeline

What a pipeline is meant to do : every command of a block gets the whole output of the block
in front of it, followed by end of file, and the last block writes to the output of the shell
(`Dataflow`). `executeCmdPipe_dataflow` is that the processes do so, in any order of their
system calls and whatever the programs read and write.

The invariant follows the leader. Before it forks command `i`, the pipe of a block that ends
at `i - 1` or later has the output of its commands so far, and the pipe between two
alternatives the input of their block (`Flow`). While a command wires its descriptors, the
invariant says what it will have reached at `execvp`, whatever the leader closes in the
meantime (`JobInv`).
-/

namespace NetProg.Shell

open FdTable

/-! ## Outputs -/

/-- The outputs of the commands from `a` up to `b`, one after the other. -/
def gathered (out : ℕ → List UInt8) (a b : ℕ) : List UInt8 :=
  ((List.range' a (b - a)).map out).flatten

section Gathered

variable {out : ℕ → List UInt8} {a b i : ℕ}

theorem gathered_of_le (h : b ≤ a) : gathered out a b = [] := by
  simp [gathered, Nat.sub_eq_zero_of_le h]

theorem gathered_succ (h : a ≤ b) : gathered out a (b + 1) = gathered out a b ++ out b := by
  have hlen : b + 1 - a = b - a + 1 := by omega
  have hlast : a + (b - a) = b := by omega
  simp [gathered, hlen, List.range'_concat, hlast]

theorem gathered_succ_of_nil (h : out b = []) : gathered out a (b + 1) = gathered out a b := by
  by_cases hab : a ≤ b
  · rw [gathered_succ hab, h, List.append_nil]
  · rw [gathered_of_le (by omega), gathered_of_le (by omega)]

theorem gathered_of_later {hi : ℕ} (h : ∀ j, hi ≤ j → out j = []) (hb : hi ≤ b) :
    gathered out a b = gathered out a hi := by
  induction b, hb using Nat.le_induction with
  | base => rfl
  | succ b hb ih => rw [gathered_succ_of_nil (h b hb), ih]

theorem gathered_update (v : List UInt8) (h : b ≤ i) :
    gathered (Function.update out i v) a b = gathered out a b := by
  unfold gathered
  congr 1
  refine List.map_congr_left fun k hk => Function.update_of_ne ?_ ..
  rw [List.mem_range'_1] at hk
  omega

theorem gathered_write (bytes : List UInt8) (h : a ≤ i) :
    gathered (Function.update out i (out i ++ bytes)) a (i + 1) = gathered out a (i + 1) ++ bytes := by
  rw [gathered_succ h, gathered_succ h, gathered_update _ le_rfl, Function.update_self,
    List.append_assoc]

end Gathered

/-- The input that is meant for command `i` : the outputs of the block in front of its own. -/
def blockInput (bs : List PipeCount) (out : ℕ → List UInt8) (i : ℕ) : List UInt8 :=
  gathered out (start bs (start bs i - 1)) (start bs i)

/-- The next call of the code, or the program behind it, reads pipe `q`. -/
def Reads (code : List Syscall) (p : Proc) (q : ℕ) : Prop :=
  match code with
  | .readAll fd :: _ => p.fds.get (fd.eval p) = some (.readEnd q)
  | [] => p.fds.get 0 = some (.readEnd q)
  | _ => False

/-- What the pipeline is meant to do. -/
structure Dataflow (bs : List PipeCount) (pipeFd : PipeFds) (s : State) : Prop where
  /-- What a command has read and what it still can read are the input of its block. -/
  stdin : ∀ i p, s.job = .running i [] p → i ≠ 0 → ∃ q, p.fds.get 0 = some (.readEnd q) ∧
    s.got i ++ s.kernel.pipes q = blockInput bs s.out i
  /-- A command has read nothing else, and all of it when it sees end of file. -/
  got : ∀ i, i ≠ 0 → s.got i <+: blockInput bs s.out i ∧
    (s.eof i = true → s.got i = blockInput bs s.out i)
  /-- A command writes to the pipe behind its block, which has a reader, and the commands of the
  last block write to the output of the shell. -/
  stdout : ∀ i p, s.job = .running i [] p →
    p.fds.get 1 = some (((outPipe bs i).map .writeEnd).getD .shellOut) ∧
      ∀ q ∈ outPipe bs i, Open s.leader p.fds (.readEnd q)
  /-- Nothing else is written there. -/
  tty : s.tty = gathered s.out (start bs ((commands bs).length - 1)) (commands bs).length
  /-- A pipe that is read has no writer. -/
  writers : ∀ i code p q, s.job = .running i code p → Reads code p q →
    ¬Open s.leader p.fds (.writeEnd q)
  /-- No call of a command waits or fails. -/
  calls : ∀ i c code p, s.job = .running i (c :: code) p →
    ∃ x, c.exec s.leader p s.kernel = .done x
  /-- The processes go on until every command has been run. -/
  live : s.pc ≠ .exited → ∃ l, (step (commands bs) pipeFd s l).isSome
  started : s.pc = .exited → s.kernel.started = List.range (commands bs).length

/-! ## The invariant -/

variable {bs : List PipeCount} {pipeFd : PipeFds} {s s' : State} {i : ℕ}

/-- What is in the pipes that commands from `hi - 1` on write to, when the commands up to `hi`
have been forked. -/
structure Flow (bs : List PipeCount) (hi : ℕ) (out pipes : ℕ → List UInt8) : Prop where
  outer : ∀ j, hi ≤ j + 1 → j + 1 < (commands bs).length → last bs j = j →
    pipes j = gathered out (start bs j) hi
  inner : ∀ j, hi ≤ j + 1 → j + 1 < (commands bs).length → last bs j ≠ j →
    pipes j = if j + 1 = hi then blockInput bs out j else []

/-- What the commands have read and written. -/
structure Hist (bs : List PipeCount) (hi : ℕ) (s : State) : Prop where
  tty : s.tty = gathered s.out (start bs ((commands bs).length - 1)) hi
  got : ∀ j, j ≠ 0 → s.got j <+: blockInput bs s.out j ∧
    (s.eof j = true → s.got j = blockInput bs s.out j)
  later : ∀ j, hi ≤ j → s.out j = [] ∧ s.got j = [] ∧ s.eof j = false

/-- Descriptor 0 of command `i` has the rest of its input. -/
def Stdin (bs : List PipeCount) (i : ℕ) (out got pipes : ℕ → List UInt8) (f : File) : Prop :=
  i = 0 ∧ f = .shellIn ∨ i ≠ 0 ∧ ∃ q, f = .readEnd q ∧ (q < i ∨ (commands bs).length - 1 ≤ q) ∧
    got i ++ pipes q = blockInput bs out i

/-- Command `i` is wired and runs its program. -/
structure Launched (bs : List PipeCount) (i : ℕ) (out got : ℕ → List UInt8) (p : Proc) (k : Kernel) :
    Prop where
  wired : ∃ f, p.WiredTo f (outPipe bs i) ∧ Stdin bs i out got k.pipes f
  flow : Flow bs (i + 1) out k.pipes
  started : k.started = List.range (i + 1)
  count : (commands bs).length - 1 ≤ k.count

/-- The process holds no more than the leader. -/
def Below (leader' leader : FdTable File) : Prop :=
  ∀ f, leader'.Holds f → leader.Holds f

/-- The process of command `i` will run its program, whatever the leader closes, or has done so. -/
def JobInv (bs : List PipeCount) (i : ℕ) (s : State) : Prop :=
  match s.job with
  | .none => False
  | .running j code p => j = i ∧ ∀ leader', Below leader' s.leader →
      ∃ p' k', Runs leader' code p s.kernel p' k' ∧ Launched bs i s.out s.got p' k'
  | .zombie => Flow bs (i + 1) s.out s.kernel.pipes ∧ s.kernel.started = List.range (i + 1) ∧
      (commands bs).length - 1 ≤ s.kernel.count

/-- Command `i` has been forked, and the leader has write ends from `w` and read ends from `r`. -/
structure Forked (bs : List PipeCount) (pipeFd : PipeFds) (i w r : ℕ) (s : State) : Prop where
  lt : i < (commands bs).length
  wired : Wired pipeFd ((commands bs).length - 1) w r s.leader
  le_w : i ≤ w
  r_le : r ≤ i
  hist : Hist bs (i + 1) s
  job : JobInv bs i s

/-- The invariant of the leader's loop. -/
def Inv (bs : List PipeCount) (pipeFd : PipeFds) (s : State) : Prop :=
  match s.pc with
  | .fork i => i ≤ (commands bs).length ∧
      Wired pipeFd ((commands bs).length - 1) i (i - 1) s.leader ∧ s.job = .none ∧ Hist bs i s ∧
      Flow bs i s.out s.kernel.pipes ∧ s.kernel.started = List.range i ∧
      (commands bs).length - 1 ≤ s.kernel.count
  | .closeWrite i => Forked bs pipeFd i i (i - 1) s
  | .closeRead i => Forked bs pipeFd i (i + 1) (i - 1) s
  | .waiting i => Forked bs pipeFd i (i + 1) i s
  | .exited => s.job = .none ∧ Hist bs (commands bs).length s ∧
      s.kernel.started = List.range (commands bs).length

/-! ### Forking -/

/-- What is in the pipe in front of a command is the input of its block. -/
theorem Flow.upstream {out pipes : ℕ → List UInt8} (h : Flow bs i out pipes) (hpos : i ≠ 0)
    (hi : i < (commands bs).length) : pipes (i - 1) = blockInput bs out i := by
  obtain ⟨j, rfl⟩ : ∃ j, i = j + 1 := ⟨i - 1, by omega⟩
  rw [Nat.add_sub_cancel]
  by_cases hlast : last bs j = j
  · have hstart := start_succ_of_last hlast hi
    rw [h.outer j le_rfl hi hlast, blockInput, hstart, Nat.add_sub_cancel]
  · have hstart := start_succ_of_ne (by omega) hlast
    rw [h.inner j le_rfl hi hlast, if_pos rfl, blockInput, blockInput, hstart]

/-- A command has its input before it and leaves its successors what they need. -/
theorem Fed.flow {out got : ℕ → List UInt8} {k k' : Kernel} {f : File} (h : Fed bs i k k' f)
    (hflow : Flow bs i out k.pipes) (hfirst : last bs 0 = 0) (hi : i < (commands bs).length)
    (hcount : (commands bs).length - 1 ≤ k.count) (hout : out i = []) (hgot : got i = []) :
    Flow bs (i + 1) out k'.pipes ∧ Stdin bs i out got k'.pipes f ∧
      (commands bs).length - 1 ≤ k'.count := by
  have hle := le_last hi
  have hlt := last_lt hi
  -- when the command is the last of its block and leaves the pipes alone
  have hsame : last bs i = i → Flow bs (i + 1) out k.pipes := by
    intro hlast
    refine ⟨fun j hj hjc hjl => ?_, fun j hj hjc hjl => ?_⟩
    · rw [hflow.outer j (by omega) hjc hjl, gathered_succ_of_nil hout]
    · have hji : j ≠ i := fun heq => hjl (heq ▸ hlast)
      rw [hflow.inner j (by omega) hjc hjl, if_neg (by omega), if_neg (by omega)]
  cases h with
  | shell hi0 hpipes hk =>
    refine ⟨hpipes ▸ hsame (hi0 ▸ hfirst), .inl ⟨hi0, rfl⟩, by omega⟩
  | upstream hi0 hlast hpipes hk =>
    refine ⟨hpipes ▸ hsame hlast, .inr ⟨hi0, i - 1, rfl, .inl (by omega), ?_⟩, by omega⟩
    rw [hgot, hpipes, List.nil_append, hflow.upstream hi0 hi]
  | copy hi0 hlast hk htemp hnext hpipes =>
    have hup := hflow.upstream hi0 hi
    refine ⟨⟨fun j hj hjc hjl => ?_, fun j hj hjc hjl => ?_⟩,
      .inr ⟨hi0, k.count, rfl, .inr hcount, ?_⟩, by omega⟩
    · have hji : j ≠ i := fun heq => hlast (heq ▸ hjl)
      rw [hpipes j (by omega) hji (by omega), hflow.outer j (by omega) hjc hjl,
        gathered_succ_of_nil hout]
    · by_cases hji : j = i
      · subst hji
        rw [hnext, hup, hflow.inner j (by omega) hjc hjl, if_neg (by omega), if_pos rfl,
          List.nil_append]
      · rw [hpipes j (by omega) hji (by omega), hflow.inner j (by omega) hjc hjl,
          if_neg (by omega), if_neg (by omega)]
    · rw [hgot, htemp, List.nil_append, hup]

theorem Hist.succ (h : Hist bs i s) : Hist bs (i + 1) s :=
  ⟨by rw [gathered_succ_of_nil (h.later i le_rfl).1, h.tty], h.got,
    fun j hj => h.later j (by omega)⟩

theorem Below.trans {t t' t'' : FdTable File} (h : Below t t') (h' : Below t' t'') : Below t t'' :=
  fun f hf => h' f (h f hf)

theorem below_close (t : FdTable File) (fd : ℕ) : Below (t.close fd) t := by
  intro f hf
  obtain ⟨x, hx⟩ := holds_iff.1 hf
  rw [get_close] at hx
  split_ifs at hx
  exact holds_iff.2 ⟨x, hx⟩

/-- The leader closes something. -/
theorem JobInv.below {leader : FdTable File} {pc : LeaderPc} (h : JobInv bs i s)
    (hb : Below leader s.leader) : JobInv bs i { s with leader := leader, pc := pc } := by
  unfold JobInv at h ⊢
  cases hjob : s.job with
  | none => simp only [hjob] at h
  | running j code p =>
    simp only [hjob] at h ⊢
    exact ⟨h.1, fun leader' hb' => h.2 leader' (hb'.trans hb)⟩
  | zombie =>
    simp only [hjob] at h ⊢
    exact h

/-- Behind the last pipe, it does not matter which write ends are held. -/
theorem Wired.of_length_le {m w r w' : ℕ} {t : FdTable File} (h : Wired pipeFd m w r t)
    (hw : m ≤ w) (hw' : m ≤ w') : Wired pipeFd m w' r t :=
  ⟨h.stdin, h.stdout, h.read, fun j hj hjm => by omega, h.of_read,
    fun fd j hfd => by have := h.of_write fd j hfd; omega⟩

/-- A command that is forked will run its program, whatever the leader closes. -/
theorem child_launched {cmd : Command} {leader' : FdTable File} (hfirst : last bs 0 = 0)
    (hn : Numbers pipeFd ((commands bs).length - 1)) (hcmd : (commands bs)[i]? = some cmd)
    (hw : Wired pipeFd ((commands bs).length - 1) i (i - 1) s.leader) (hhist : Hist bs i s)
    (hflow : Flow bs i s.out s.kernel.pipes) (hstarted : s.kernel.started = List.range i)
    (hcount : (commands bs).length - 1 ≤ s.kernel.count) (hb : Below leader' s.leader) :
    ∃ p' k', Runs leader' (childCode pipeFd (commands bs).length i cmd) ⟨s.leader, [], (0, 0)⟩
      s.kernel p' k' ∧ Launched bs i s.out s.got p' k' := by
  have hlt : i < (commands bs).length := (List.getElem?_eq_some_iff.1 hcmd).1
  obtain ⟨hout, hgot, -⟩ := hhist.later i le_rfl
  have hend : i ≠ 0 → ¬leader'.Holds (.writeEnd (i - 1)) := by
    intro hi0 hl
    obtain ⟨fd, hfd⟩ := holds_iff.1 (hb _ hl)
    have := (hw.of_write fd _ hfd).1
    omega
  obtain ⟨p', k', f, hruns, hwired, hstarted', hfed, -⟩ :=
    childCode_runs (p := ⟨s.leader, [], (0, 0)⟩) (k := s.kernel) hfirst hlt hcmd hn hw hcount hend
  obtain ⟨hflow', hstdin, hcount'⟩ := hfed.flow hflow hfirst hlt hcount hout hgot
  exact ⟨p', k', hruns, ⟨f, hwired, hstdin⟩, hflow', by rw [hstarted', hstarted, List.range_succ],
    hcount'⟩

/-- The leader's loop keeps the invariant. -/
theorem leaderStep_inv (hfirst : last bs 0 = 0) (hn : Numbers pipeFd ((commands bs).length - 1))
    (h : Inv bs pipeFd s) (hs : leaderStep (commands bs) pipeFd s = some s') :
    Inv bs pipeFd s' := by
  unfold leaderStep at hs
  unfold Inv at h
  cases hpc : s.pc with
  | fork i =>
    simp only [hpc] at h hs
    obtain ⟨hi, hw, hjob, hhist, hflow, hstarted, hcount⟩ := h
    cases hcmd : (commands bs)[i]? with
    | none =>
      simp only [hcmd] at hs
      obtain rfl := Option.some.inj hs
      have hlen := List.getElem?_eq_none_iff.1 hcmd
      obtain rfl : i = (commands bs).length := by omega
      exact ⟨hjob, ⟨hhist.tty, hhist.got, hhist.later⟩, hstarted⟩
    | some cmd =>
      simp only [hcmd] at hs
      obtain rfl := Option.some.inj hs
      have hlt : i < (commands bs).length := (List.getElem?_eq_some_iff.1 hcmd).1
      exact ⟨hlt, hw, le_rfl, by omega, ⟨hhist.succ.tty, hhist.succ.got, hhist.succ.later⟩,
        rfl, fun leader' hb => child_launched hfirst hn hcmd hw hhist hflow hstarted hcount hb⟩
  | closeWrite i =>
    simp only [hpc] at h hs
    obtain rfl := Option.some.inj hs
    obtain ⟨hlt, hw, hle, hr, hhist, hjob⟩ := h
    by_cases hlast : i + 1 ≠ (commands bs).length
    · simp only [if_pos hlast]
      exact ⟨hlt, hw.closeWrite hn (by omega), by omega, by omega,
        ⟨hhist.tty, hhist.got, hhist.later⟩, hjob.below (below_close _ _)⟩
    · simp only [if_neg hlast]
      exact ⟨hlt, hw.of_length_le (by omega) (by omega), by omega, by omega,
        ⟨hhist.tty, hhist.got, hhist.later⟩, hjob.below fun _ hf => hf⟩
  | closeRead i =>
    simp only [hpc] at h hs
    obtain rfl := Option.some.inj hs
    obtain ⟨hlt, hw, hle, hr, hhist, hjob⟩ := h
    by_cases hi0 : i ≠ 0
    · simp only [if_pos hi0]
      have hw' := hw.closeRead hn (by omega)
      rw [Nat.sub_add_cancel (by omega)] at hw'
      exact ⟨hlt, hw', by omega, le_rfl, ⟨hhist.tty, hhist.got, hhist.later⟩,
        hjob.below (below_close _ _)⟩
    · simp only [if_neg hi0]
      obtain rfl : i = 0 := by omega
      exact ⟨hlt, hw, by omega, le_rfl, ⟨hhist.tty, hhist.got, hhist.later⟩,
        hjob.below fun _ hf => hf⟩
  | waiting i =>
    simp only [hpc] at h hs
    obtain ⟨hlt, hw, hle, hr, hhist, hjob⟩ := h
    unfold JobInv at hjob
    cases hj : s.job with
    | none => simp only [hj] at hjob
    | running j code p =>
      simp only [hj] at hs
      cases hs
    | zombie =>
      simp only [hj] at hs hjob
      obtain rfl := Option.some.inj hs
      exact ⟨hlt, hw, rfl, ⟨hhist.tty, hhist.got, hhist.later⟩, hjob⟩
  | exited =>
    simp only [hpc] at hs
    cases hs

/-! ### The command -/

/-- A system call brings the command nearer to what it will have reached. -/
theorem syscallStep_forked {w r : ℕ} (h : Forked bs pipeFd i w r s) (hs : syscallStep s = some s') :
    Forked bs pipeFd i w r s' ∧ s'.pc = s.pc := by
  obtain ⟨hlt, hw, hle, hr, hhist, hjob⟩ := h
  unfold JobInv at hjob
  unfold syscallStep at hs
  cases hj : s.job with
  | none => simp only [hj] at hjob
  | zombie =>
    simp only [hj] at hs
    cases hs
  | running j code p =>
    simp only [hj] at hjob hs
    obtain ⟨rfl, hruns⟩ := hjob
    cases code with
    | nil => cases hs
    | cons c code =>
      obtain ⟨-, -, ⟨q, l, hc, -⟩, -⟩ := hruns s.leader fun _ hf => hf
      simp only [hc] at hs
      obtain rfl := Option.some.inj hs
      refine ⟨⟨hlt, hw, hle, hr, ⟨hhist.tty, hhist.got, hhist.later⟩, rfl, fun leader' hb => ?_⟩, rfl⟩
      obtain ⟨p', k', ⟨q', l', hc', hrest⟩, hlaunched⟩ := hruns leader' hb
      obtain ⟨rfl, rfl⟩ := Prod.mk.injEq .. ▸ exec_agree hc hc'
      exact ⟨p', k', hrest, hlaunched⟩

/-- The last position of a pipeline ends a block. -/
theorem last_length (hi : i < (commands bs).length) :
    last bs ((commands bs).length - 1) = (commands bs).length - 1 := by
  have hpos : (commands bs).length - 1 < (commands bs).length := by omega
  have hle := le_last hpos
  have hlt := last_lt hpos
  omega

/-- The block of a later position starts behind `i`, unless the two have one block. -/
theorem lt_start {j : ℕ} (hj : j < (commands bs).length) (hij : i ≤ j) (hjl : last bs j = j)
    (hne : last bs i ≠ j) : i < start bs j := by
  by_contra hge
  exact hne ((last_eq hj (by omega) (by omega)).trans hjl)

/-- Writing to the pipe behind the block, if there is one, keeps the flow. -/
theorem Flow.write {out pipes pipes' : ℕ → List UInt8} (h : Flow bs (i + 1) out pipes)
    (hi : i < (commands bs).length) (bytes : List UInt8)
    (hlast : last bs i + 1 < (commands bs).length →
      pipes' (last bs i) = pipes (last bs i) ++ bytes)
    (hother : ∀ j, j ≠ last bs i → pipes' j = pipes j) :
    Flow bs (i + 1) (Function.update out i (out i ++ bytes)) pipes' := by
  have hle := le_last hi
  have hsle := start_le hi
  refine ⟨fun j hj hjc hjl => ?_, fun j hj hjc hjl => ?_⟩
  · by_cases hji : j = last bs i
    · subst hji
      have hstart : start bs (last bs i) = start bs i := start_eq hi (by omega) le_rfl
      rw [hlast hjc, h.outer _ hj hjc hjl, hstart, gathered_write _ hsle]
    · have hlt := lt_start (by omega) (by omega) hjl (Ne.symm hji)
      rw [hother j hji, h.outer j hj hjc hjl, gathered_of_le (by omega), gathered_of_le (by omega)]
  · have hji : j ≠ last bs i := by
      rintro rfl
      exact hjl (last_eq hi (by omega) le_rfl)
    rw [hother j hji, h.inner j hj hjc hjl]
    split_ifs with heq
    · obtain rfl : j = i := by omega
      rw [blockInput, blockInput, gathered_update _ hsle]
    · rfl

/-- What the commands have read is what was meant for them, also when one has written more. -/
theorem Hist.got_write (h : Hist bs (i + 1) s) (hi : i < (commands bs).length) (bytes : List UInt8)
    (j : ℕ) (hj : j ≠ 0) :
    s.got j <+: blockInput bs (Function.update s.out i (s.out i ++ bytes)) j ∧
      (s.eof j = true → s.got j = blockInput bs (Function.update s.out i (s.out i ++ bytes)) j) := by
  by_cases hji : j ≤ i
  · have hle : start bs j ≤ j := start_le (by omega)
    rw [blockInput, gathered_update _ (by omega)]
    exact h.got j hj
  · obtain ⟨-, hgot, heof⟩ := h.later j (by omega)
    rw [hgot, heof]
    exact ⟨List.nil_prefix, nofun⟩

/-- The output of the shell has what the last block has written. -/
theorem Hist.tty_write (h : Hist bs (i + 1) s) (hi : i < (commands bs).length)
    (bytes : List UInt8) :
    gathered (Function.update s.out i (s.out i ++ bytes)) (start bs ((commands bs).length - 1))
      (i + 1) = if last bs i + 1 = (commands bs).length then s.tty ++ bytes else s.tty := by
  have hend := last_length hi
  have hle := le_last hi
  have hlt := last_lt hi
  split_ifs with hlast
  · have hstart : start bs ((commands bs).length - 1) = start bs i :=
      start_eq hi (by have := start_le hi; omega) (by omega)
    rw [hstart, gathered_write _ (start_le hi), h.tty, hstart]
  · have hlt := lt_start (i := i) (by omega) (by omega) hend (by omega)
    rw [h.tty, gathered_of_le (by omega), gathered_of_le (by omega)]

theorem Hist.later_update {v : List UInt8} (h : Hist bs (i + 1) s) {j : ℕ} (hj : i + 1 ≤ j) :
    Function.update s.out i v j = [] ∧ s.got j = [] ∧ s.eof j = false := by
  rw [Function.update_of_ne (by omega)]
  exact h.later j hj

/-- Command `i` has read more, or has seen end of file. -/
theorem Hist.read (h : Hist bs (i + 1) s) {v : List UInt8} {b : Bool}
    (hv : i ≠ 0 → v <+: blockInput bs s.out i ∧ (b = true → v = blockInput bs s.out i))
    (htty : s'.tty = s.tty) (hout : s'.out = s.out) (hgot : s'.got = Function.update s.got i v)
    (heof : s'.eof = Function.update s.eof i b) : Hist bs (i + 1) s' := by
  refine ⟨by rw [htty, hout, h.tty], fun j hj => ?_, fun j hj => ?_⟩
  · rw [hout, hgot, heof]
    by_cases hji : j = i
    · subst hji
      rw [Function.update_self, Function.update_self]
      exact hv hj
    · rw [Function.update_of_ne hji, Function.update_of_ne hji]
      exact h.got j hj
  · rw [hout, hgot, heof, Function.update_of_ne (by omega), Function.update_of_ne (by omega)]
    exact h.later j hj

theorem JobInv.launched {j : ℕ} {p : Proc} (h : JobInv bs i s) (hjob : s.job = .running j [] p) :
    j = i ∧ Launched bs i s.out s.got p s.kernel := by
  unfold JobInv at h
  simp only [hjob] at h
  obtain ⟨p', k', ⟨rfl, rfl⟩, hl⟩ := h.2 s.leader fun _ hf => hf
  exact ⟨h.1, hl⟩

theorem Launched.jobInv {p : Proc} (h : Launched bs i s.out s.got p s.kernel)
    (hjob : s.job = .running i [] p) : JobInv bs i s := by
  unfold JobInv
  simp only [hjob]
  exact ⟨trivial, fun _ _ => ⟨p, s.kernel, ⟨rfl, rfl⟩, h⟩⟩

/-- Reading from the input pipe keeps the flow. -/
theorem Flow.read {out pipes : ℕ → List UInt8} {q : ℕ} (h : Flow bs (i + 1) out pipes)
    (hq : q < i ∨ (commands bs).length - 1 ≤ q) (rest : List UInt8) :
    Flow bs (i + 1) out (Function.update pipes q rest) := by
  refine ⟨fun j hj hjc hjl => ?_, fun j hj hjc hjl => ?_⟩
  · rw [Function.update_of_ne (by omega), h.outer j hj hjc hjl]
  · rw [Function.update_of_ne (by omega), h.inner j hj hjc hjl]

/-- What command `i` has written only matters behind its block. -/
theorem Stdin.write {out got pipes pipes' : ℕ → List UInt8} {f : File}
    (h : Stdin bs i out got pipes f) (hi : i < (commands bs).length) (v : List UInt8)
    (hpipes : ∀ q, q ≠ last bs i ∨ last bs i + 1 = (commands bs).length → pipes' q = pipes q) :
    Stdin bs i (Function.update out i v) got pipes' f := by
  have hle := le_last hi
  have hlt := last_lt hi
  rcases h with h | ⟨hi0, q, hf, hq, hrest⟩
  · exact .inl h
  · refine .inr ⟨hi0, q, hf, hq, ?_⟩
    rw [hpipes q (by omega), hrest, blockInput, blockInput, gathered_update _ (start_le hi)]

/-- The command still runs its program. -/
theorem Forked.of_launched {w r : ℕ} {p : Proc} (h : Forked bs pipeFd i w r s)
    (hjob : s'.job = .running i [] p) (hleader : s'.leader = s.leader) (hhist : Hist bs (i + 1) s')
    (hl : Launched bs i s'.out s'.got p s'.kernel) : Forked bs pipeFd i w r s' :=
  ⟨h.lt, hleader ▸ h.wired, h.le_w, h.r_le, hhist, hl.jobInv hjob⟩

/-- The command has ended. -/
theorem Forked.zombie {w r : ℕ} {p : Proc} (h : Forked bs pipeFd i w r s)
    (hl : Launched bs i s.out s.got p s.kernel) :
    Forked bs pipeFd i w r { s with job := .zombie } :=
  ⟨h.lt, h.wired, h.le_w, h.r_le, ⟨h.hist.tty, h.hist.got, h.hist.later⟩, hl.flow, hl.started,
    hl.count⟩

/-- The program of a command reads. -/
theorem programStep_read {w r n : ℕ} {p : Proc} (h : Forked bs pipeFd i w r s)
    (hjob : s.job = .running i [] p) (hs : programStep s i p (.read n) = some s') :
    Forked bs pipeFd i w r s' ∧ s'.pc = s.pc := by
  obtain ⟨-, ⟨f, hwired, hstdin⟩, hflow, hstarted, hcount⟩ := h.job.launched hjob
  simp only [programStep, hwired.stdin] at hs
  rcases hstdin with ⟨-, rfl⟩ | ⟨hi0, q, rfl, hq, hrest⟩
  · cases hs
  simp only at hs
  split_ifs at hs with hn
  obtain rfl := Option.some.inj hs
  have hread : s.got i ++ (s.kernel.pipes q).take n ++ (s.kernel.pipes q).drop n =
      blockInput bs s.out i := by
    rw [List.append_assoc, List.take_append_drop, hrest]
  -- nothing is left after end of file
  have heof : s.eof i = true → s.got i ++ (s.kernel.pipes q).take n = blockInput bs s.out i := by
    intro heof
    have hall := (h.hist.got i hi0).2 heof
    rw [hall] at hrest
    have hnil : s.kernel.pipes q = [] := List.append_right_eq_self.1 hrest
    rw [hnil] at hn
    exact absurd hn.2 (by rw [List.length_nil]; omega)
  refine ⟨h.of_launched hjob rfl
    (h.hist.read (fun _ => ⟨⟨_, hread⟩, heof⟩) rfl rfl rfl (Function.update_eq_self i s.eof).symm)
    ⟨⟨_, hwired, .inr ⟨hi0, q, rfl, hq, ?_⟩⟩, hflow.read hq _, hstarted, hcount⟩, rfl⟩
  simp only [Function.update_self]
  exact hread

/-- The program of a command writes. -/
theorem programStep_write {w r : ℕ} {bytes : List UInt8} {p : Proc}
    (h : Forked bs pipeFd i w r s) (hjob : s.job = .running i [] p)
    (hs : programStep s i p (.write bytes) = some s') :
    Forked bs pipeFd i w r s' ∧ s'.pc = s.pc := by
  have hzombie := h.zombie (h.job.launched hjob).2
  obtain ⟨-, ⟨f, hwired, hstdin⟩, hflow, hstarted, hcount⟩ := h.job.launched hjob
  simp only [programStep, hwired.stdout] at hs
  have htty := h.hist.tty_write h.lt bytes
  have hgot := h.hist.got_write h.lt bytes
  cases hout : outPipe bs i with
  | none =>
    have hlast : last bs i + 1 = (commands bs).length := by
      by_contra hne
      have hmem := mem_outPipe.2 ⟨hne, rfl⟩
      rw [hout] at hmem
      cases hmem
    simp only [hout] at hs
    obtain rfl := Option.some.inj hs
    rw [if_pos hlast] at htty
    exact ⟨h.of_launched hjob rfl ⟨htty.symm, hgot, fun j => h.hist.later_update⟩
      ⟨⟨f, hwired, hstdin.write h.lt _ fun _ _ => rfl⟩,
        hflow.write h.lt bytes (fun h => by omega) fun _ _ => rfl, hstarted, hcount⟩, rfl⟩
  | some q =>
    obtain ⟨hlast, rfl⟩ := mem_outPipe.1 hout
    simp only [hout, Option.map_some, Option.getD_some] at hs
    rw [if_neg hlast] at htty
    split_ifs at hs
    · obtain rfl := Option.some.inj hs
      refine ⟨h.of_launched hjob rfl ⟨htty.symm, hgot, fun j => h.hist.later_update⟩
        ⟨⟨f, hwired, hstdin.write h.lt _ fun q hq => ?_⟩,
          hflow.write h.lt bytes (fun _ => ?_) fun j hj => ?_, hstarted, hcount⟩, rfl⟩
      · exact Function.update_of_ne (hq.resolve_right hlast) ..
      · exact Function.update_self ..
      · exact Function.update_of_ne hj ..
    · obtain rfl := Option.some.inj hs
      exact ⟨hzombie, rfl⟩

/-- The program of a command keeps the invariant. -/
theorem programStep_forked {w r : ℕ} {p : Proc} {l : Label} (h : Forked bs pipeFd i w r s)
    (hjob : s.job = .running i [] p) (hs : programStep s i p l = some s') :
    Forked bs pipeFd i w r s' ∧ s'.pc = s.pc := by
  have hzombie := h.zombie (h.job.launched hjob).2
  obtain ⟨-, ⟨f, hwired, hstdin⟩, hflow, hstarted, hcount⟩ := h.job.launched hjob
  cases l with
  | leader => cases hs
  | syscall => cases hs
  | read n => exact programStep_read h hjob hs
  | write bytes => exact programStep_write h hjob hs
  | exit =>
    obtain rfl := Option.some.inj hs
    exact ⟨hzombie, rfl⟩
  | readShell bytes =>
    simp only [programStep, hwired.stdin] at hs
    rcases hstdin with ⟨hi0, rfl⟩ | ⟨hi0, q, rfl, hq, hrest⟩
    · obtain rfl := Option.some.inj hs
      exact ⟨h.of_launched hjob rfl
        (h.hist.read (fun h => absurd hi0 h) rfl rfl rfl (Function.update_eq_self i s.eof).symm)
        ⟨⟨_, hwired, .inl ⟨hi0, rfl⟩⟩, hflow, hstarted, hcount⟩, rfl⟩
    · cases hs
  | readEof =>
    simp only [programStep, hwired.stdin] at hs
    rcases hstdin with ⟨-, rfl⟩ | ⟨hi0, q, rfl, hq, hrest⟩
    · cases hs
    · simp only at hs
      split_ifs at hs with hn
      obtain rfl := Option.some.inj hs
      have hall : s.got i = blockInput bs s.out i := by
        rw [← hrest, hn.1, List.append_nil]
      have hgot : i ≠ 0 → s.got i <+: blockInput bs s.out i ∧
          (true = true → s.got i = blockInput bs s.out i) :=
        fun _ => ⟨⟨[], by rw [List.append_nil, hall]⟩, fun _ => hall⟩
      exact ⟨h.of_launched hjob rfl
        (h.hist.read hgot rfl rfl (Function.update_eq_self i s.got).symm rfl)
        ⟨⟨_, hwired, .inr ⟨hi0, q, rfl, hq, hrest⟩⟩, hflow, hstarted, hcount⟩, rfl⟩

/-- While there is a command, the invariant is about that command. -/
theorem Inv.forked (h : Inv bs pipeFd s) (hjob : s.job ≠ .none) :
    ∃ i w r, Forked bs pipeFd i w r s ∧
      ∀ s', Forked bs pipeFd i w r s' ∧ s'.pc = s.pc → Inv bs pipeFd s' := by
  unfold Inv at h
  cases hpc : s.pc with
  | fork i =>
    simp only [hpc] at h
    exact absurd h.2.2.1 hjob
  | exited =>
    simp only [hpc] at h
    exact absurd h.1 hjob
  | closeWrite i | closeRead i | waiting i =>
    simp only [hpc] at h
    exact ⟨_, _, _, h, fun s' hs' => by rw [Inv, hs'.2]; exact hs'.1⟩

theorem jobStep_inv {l : Label} (h : Inv bs pipeFd s) (hs : jobStep s l = some s') :
    Inv bs pipeFd s' := by
  unfold jobStep at hs
  cases hjob : s.job with
  | none => simp [hjob] at hs
  | zombie => simp [hjob] at hs
  | running i code p =>
    cases code with
    | cons c code => simp [hjob] at hs
    | nil =>
      simp only [hjob] at hs
      obtain ⟨j, w, r, hforked, hinv⟩ := h.forked (by simp [hjob])
      obtain ⟨rfl, -⟩ := hforked.job.launched hjob
      exact hinv s' (programStep_forked hforked hjob hs)

/-- Every step keeps the invariant. -/
theorem step_inv (hfirst : last bs 0 = 0) (hn : Numbers pipeFd ((commands bs).length - 1))
    (l : Label) (h : Inv bs pipeFd s) (hs : step (commands bs) pipeFd s l = some s') :
    Inv bs pipeFd s' := by
  cases l with
  | leader => exact leaderStep_inv hfirst hn h hs
  | syscall =>
    have hjob : s.job ≠ .none := by
      intro hjob
      simp [step, syscallStep, hjob] at hs
    obtain ⟨j, w, r, hforked, hinv⟩ := h.forked hjob
    exact hinv s' (syscallStep_forked hforked hs)
  | read n | readShell bytes | readEof | write bytes | exit => exact jobStep_inv h hs

/-! ## The result -/

theorem Inv.hist (h : Inv bs pipeFd s) : ∃ hi ≤ (commands bs).length, Hist bs hi s := by
  unfold Inv at h
  cases hpc : s.pc with
  | fork i =>
    simp only [hpc] at h
    exact ⟨i, h.1, h.2.2.2.1⟩
  | exited =>
    simp only [hpc] at h
    exact ⟨_, le_rfl, h.2.1⟩
  | closeWrite i | closeRead i | waiting i =>
    simp only [hpc] at h
    exact ⟨i + 1, h.lt, h.hist⟩

/-- A call of a command returns. -/
theorem Inv.calls (h : Inv bs pipeFd s) {c : Syscall} {code : List Syscall} {p : Proc}
    (hjob : s.job = .running i (c :: code) p) : ∃ x, c.exec s.leader p s.kernel = .done x := by
  obtain ⟨j, w, r, hforked, -⟩ := h.forked (by simp [hjob])
  have hj := hforked.job
  unfold JobInv at hj
  simp only [hjob] at hj
  obtain ⟨-, -, ⟨q, l, hc, -⟩, -⟩ := hj.2 s.leader fun _ hf => hf
  exact ⟨_, hc⟩

/-- The program of a command is wired to its input, to a pipe with a reader, and to no other. -/
theorem Inv.program (h : Inv bs pipeFd s) {p : Proc} (hjob : s.job = .running i [] p) :
    ∃ f, p.WiredTo f (outPipe bs i) ∧ Stdin bs i s.out s.got s.kernel.pipes f ∧
      (∀ q ∈ outPipe bs i, s.leader.Holds (.readEnd q)) ∧
      ∀ q, q < i ∨ (commands bs).length - 1 ≤ q → ¬Open s.leader p.fds (.writeEnd q) := by
  obtain ⟨j, w, r, hforked, -⟩ := h.forked (by simp [hjob])
  obtain ⟨rfl, hl⟩ := hforked.job.launched hjob
  obtain ⟨f, hwired, hstdin⟩ := hl.wired
  obtain ⟨hlt, hw, hle, hr, -⟩ := hforked
  have hll := le_last hlt
  have hlast := last_lt hlt
  refine ⟨f, hwired, hstdin, fun q hq => ?_, ?_⟩
  · obtain ⟨hne, rfl⟩ := mem_outPipe.1 hq
    exact holds_iff.2 ⟨_, hw.read _ (by omega) (by omega)⟩
  · rintro q hq (hl | hp)
    · obtain ⟨fd, hfd⟩ := holds_iff.1 hl
      obtain ⟨hwq, hqm, -⟩ := hw.of_write fd q hfd
      omega
    · obtain ⟨hne, rfl⟩ := mem_outPipe.1 (hwired.of_write q hp)
      omega

/-- No pipe that is read has a writer. -/
theorem Inv.writers (h : Inv bs pipeFd s) {code : List Syscall} {p : Proc} {q : ℕ}
    (hjob : s.job = .running i code p) (hreads : Reads code p q) :
    ¬Open s.leader p.fds (.writeEnd q) := by
  cases code with
  | nil =>
    obtain ⟨f, hwired, hstdin, -, hno⟩ := h.program hjob
    have hf : some f = some (.readEnd q) := hwired.stdin.symm.trans hreads
    obtain rfl := Option.some.inj hf
    rcases hstdin with ⟨-, hf⟩ | ⟨-, q', hf, hq, -⟩
    · cases hf
    · obtain rfl := File.readEnd.inj hf
      exact hno q hq
  | cons c code =>
    obtain ⟨x, hx⟩ := h.calls hjob
    cases c with
    | readAll fd =>
      intro hopen
      have hget : p.fds.get (fd.eval p) = some (.readEnd q) := hreads
      simp [Syscall.exec, hget, hopen] at hx
    | pipe => exact hreads.elim
    | write fd => exact hreads.elim
    | close fd => exact hreads.elim
    | dup2 fd new => exact hreads.elim
    | execvp i => exact hreads.elim

/-- Until the leader has exited, there is something to do. -/
theorem Inv.live (h : Inv bs pipeFd s) (hpc : s.pc ≠ .exited) :
    ∃ l, (step (commands bs) pipeFd s l).isSome := by
  cases hj : s.pc with
  | fork i =>
    refine ⟨.leader, ?_⟩
    cases hcmd : (commands bs)[i]? <;> simp [step, leaderStep, hj, hcmd]
  | closeWrite i => exact ⟨.leader, by simp [step, leaderStep, hj]⟩
  | closeRead i => exact ⟨.leader, by simp [step, leaderStep, hj]⟩
  | exited => exact absurd hj hpc
  | waiting i =>
    cases hjob : s.job with
    | none =>
      unfold Inv at h
      simp only [hj] at h
      have hinv := h.job
      unfold JobInv at hinv
      simp only [hjob] at hinv
    | zombie => exact ⟨.leader, by simp [step, leaderStep, hj, hjob]⟩
    | running k code p =>
      cases code with
      | nil => exact ⟨.exit, by simp [step, jobStep, programStep, hjob]⟩
      | cons c code =>
        obtain ⟨x, hx⟩ := h.calls hjob
        exact ⟨.syscall, by simp [step, syscallStep, hjob, hx]⟩

/-- The invariant gives the data flow. -/
theorem Inv.dataflow (h : Inv bs pipeFd s) : Dataflow bs pipeFd s := by
  obtain ⟨hi, hle, hhist⟩ := h.hist
  refine ⟨fun i p hjob hi0 => ?_, hhist.got, fun i p hjob => ?_, ?_, fun i code p q => h.writers,
    fun i c code p => h.calls, h.live, fun hpc => ?_⟩
  · obtain ⟨f, hwired, ⟨hi0', -⟩ | ⟨-, q, rfl, -, hrest⟩, -⟩ := h.program hjob
    · exact absurd hi0' hi0
    · exact ⟨q, hwired.stdin, hrest⟩
  · obtain ⟨f, hwired, -, hread, -⟩ := h.program hjob
    exact ⟨hwired.stdout, fun q hq => .inl (hread q hq)⟩
  · rw [hhist.tty, gathered_of_later (fun j hj => (hhist.later j hj).1) hle]
  · unfold Inv at h
    simp only [hpc] at h
    exact h.2.2

/-- Before the first command is forked. -/
theorem inv_init (sh : ShellFds) :
    Inv bs (createPipes sh.table ((commands bs).length - 1)).2
      (init (commands bs).length sh.table) := by
  have hw := createPipes_wired sh ((commands bs).length - 1)
  refine ⟨Nat.zero_le _, hw, rfl, ⟨?_, fun j _ => ⟨List.nil_prefix, nofun⟩,
    fun _ _ => ⟨rfl, rfl, rfl⟩⟩, ⟨fun j _ _ _ => ?_, fun j _ _ _ => ?_⟩, rfl, le_rfl⟩
  · rw [gathered_of_le (Nat.zero_le _)]
    rfl
  · rw [gathered_of_le (Nat.zero_le _)]
    rfl
  · rw [if_neg (by omega)]
    rfl

/-- Whatever the blocks of a pipeline are and in whatever order its processes run, every command
reads the whole output of the block in front of its own and then end of file, and the last
block writes to the output of the shell. -/
theorem executeCmdPipe_dataflow (bs : List PipeCount) (sh : ShellFds) (ls : List Label) (s : State)
    (hr : executeCmdPipe (commands (.single :: bs)) sh.table ls = some s) :
    Dataflow (.single :: bs)
      (createPipes sh.table ((commands (.single :: bs)).length - 1)).2 s := by
  have hn := (createPipes_wired sh ((commands (.single :: bs)).length - 1)).numbers
  exact (run_invariant_of_step (I := Inv (.single :: bs) _) (fun s l s' h hs =>
    step_inv rfl hn l h hs) (inv_init sh) hr).dataflow

/-- Standard input, output and error are open. -/
def plainShell : ShellFds where
  table := [some .shellIn, some .shellOut, some (.other 0)]
  stdin := rfl
  stdout := rfl
  noRead fd q := by rcases fd with _ | _ | _ | fd <;> simp [FdTable.get]
  noWrite fd q := by rcases fd with _ | _ | _ | fd <;> simp [FdTable.get]

/-- One command and two alternatives behind it, each of which reads its input and writes a byte. -/
def doubleRun : List Label :=
  [[.leader, .leader, .leader], List.replicate 5 .syscall,
    [.write [1], .exit, .leader, .leader], List.replicate 4 .syscall, [.leader, .leader],
    List.replicate 7 .syscall, [.read 1, .readEof, .write [2], .exit, .leader, .leader, .leader],
    List.replicate 5 .syscall, [.leader, .read 1, .readEof, .write [3], .exit, .leader, .leader]].flatten

/-- Both alternatives read the output of the first command. -/
theorem executeCmdPipe_dataflow_double :
    ∃ s, executeCmdPipe (commands [.single, .double]) plainShell.table doubleRun = some s ∧
      (s.pc, s.got 1, s.got 2, s.tty) = (.exited, [1], [1], [2, 3]) ∧
      Dataflow [.single, .double] (createPipes plainShell.table 2).2 s := by
  have hrun : (executeCmdPipe (commands [.single, .double]) plainShell.table doubleRun).map
      (fun s => (s.pc, s.got 1, s.got 2, s.tty)) = some (.exited, [1], [1], [2, 3]) := by
    decide +kernel
  obtain ⟨s, hr, hs⟩ := Option.map_eq_some_iff.1 hrun
  exact ⟨s, hr, hs, executeCmdPipe_dataflow [.double] plainShell doubleRun s hr⟩

end NetProg.Shell
