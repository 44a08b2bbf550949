import NetProg.Shell.Exec

/-!
# What a command is wired to

`Wired` says which ends of the pipes a process holds : the leader, when it forks command `i`,
holds the write ends from `i` on and the read ends from `i - 1` on. `childCode_runs` runs the
code of a command from such a table. Whatever ends the leader closes meanwhile, no call waits
or fails, and at `execvp` descriptor 0 is the pipe with the input of the block, descriptor 1
the pipe behind the block, and no other write end is open.
-/

namespace NetProg.Shell

open FdTable

/-! ## The ends of the pipes -/

/-- The process holds the write ends from `w` on and the read ends from `r` on of `m` pipes, each
under its number in `pipe_fd` and no other. -/
structure Wired (pipeFd : PipeFds) (m w r : ℕ) (t : FdTable File) : Prop where
  stdin : t.get 0 = some .shellIn
  stdout : t.get 1 = some .shellOut
  read : ∀ j, r ≤ j → j < m → t.get (pipeFd j).1 = some (.readEnd j)
  write : ∀ j, w ≤ j → j < m → t.get (pipeFd j).2 = some (.writeEnd j)
  of_read : ∀ fd j, t.get fd = some (.readEnd j) → r ≤ j ∧ j < m ∧ fd = (pipeFd j).1
  of_write : ∀ fd j, t.get fd = some (.writeEnd j) → w ≤ j ∧ j < m ∧ fd = (pipeFd j).2

/-- The numbers in `pipe_fd` are different, and are neither 0 nor 1. -/
structure Numbers (pipeFd : PipeFds) (m : ℕ) : Prop where
  read : ∀ j < m, (pipeFd j).1 ≠ 0 ∧ (pipeFd j).1 ≠ 1
  write : ∀ j < m, (pipeFd j).2 ≠ 0 ∧ (pipeFd j).2 ≠ 1
  read_write : ∀ j < m, ∀ k < m, (pipeFd j).1 ≠ (pipeFd k).2
  read_inj : ∀ j < m, ∀ k < m, (pipeFd j).1 = (pipeFd k).1 → j = k
  write_inj : ∀ j < m, ∀ k < m, (pipeFd j).2 = (pipeFd k).2 → j = k

/-- The descriptors of a shell : the first two are its input and output, and none is a pipe of
the pipeline. -/
structure ShellFds where
  table : FdTable File
  stdin : table.get 0 = some .shellIn
  stdout : table.get 1 = some .shellOut
  noRead : ∀ fd q, table.get fd ≠ some (.readEnd q)
  noWrite : ∀ fd q, table.get fd ≠ some (.writeEnd q)

variable {pipeFd : PipeFds} {m w r : ℕ} {t : FdTable File}

/-- All ends are open after the pipes are created. -/
theorem createPipes_wired (sh : ShellFds) (m : ℕ) :
    Wired (createPipes sh.table m).2 m 0 0 (createPipes sh.table m).1 := by
  induction m with
  | zero =>
    exact ⟨sh.stdin, sh.stdout, fun _ _ h => absurd h (Nat.not_lt_zero _),
      fun _ _ h => absurd h (Nat.not_lt_zero _), fun fd j h => absurd h (sh.noRead fd j),
      fun fd j h => absurd h (sh.noWrite fd j)⟩
  | succ m ih =>
    simp only [createPipes, openFile]
    generalize (createPipes sh.table m).1 = t at ih ⊢
    generalize (createPipes sh.table m).2 = pf at ih ⊢
    obtain ⟨hin, hout, hread, hwrite, hofr, hofw⟩ := ih
    -- what is open keeps its number
    have hkeep : ∀ fd f, t.get fd = some f →
        ((t.place t.free (.readEnd m)).place (t.place t.free (.readEnd m)).free
          (.writeEnd m)).get fd = some f :=
      fun fd f h => get_place_free (get_place_free h _) _
    have hold : ∀ j, j < m → Function.update pf m
        (t.free, (t.place t.free (.readEnd m)).free) j = pf j :=
      fun j hj => Function.update_of_ne (by omega) ..
    have hnew : t.free ≠ (t.place t.free (.readEnd m)).free :=
      ne_free (get_place_self t t.free (.readEnd m))
    have hget : ∀ fd f, ((t.place t.free (.readEnd m)).place (t.place t.free (.readEnd m)).free
        (.writeEnd m)).get fd = some f → t.get fd = some f ∨
          (fd = t.free ∧ f = .readEnd m) ∨
          (fd = (t.place t.free (.readEnd m)).free ∧ f = .writeEnd m) := by
      intro fd f h
      rcases get_of_get_place_free h with h | h
      · exact .inr (.inr h)
      · rcases get_of_get_place_free h with h | h
        · exact .inr (.inl h)
        · exact .inl h
    refine ⟨hkeep _ _ hin, hkeep _ _ hout, fun j _ hj => ?_, fun j _ hj => ?_, fun fd j h => ?_,
      fun fd j h => ?_⟩
    · by_cases hjm : j = m
      · subst hjm
        rw [Function.update_self, get_place, if_neg hnew, get_place_self]
      · rw [hold j (by omega)]
        exact hkeep _ _ (hread j (Nat.zero_le j) (by omega))
    · by_cases hjm : j = m
      · subst hjm
        rw [Function.update_self, get_place_self]
      · rw [hold j (by omega)]
        exact hkeep _ _ (hwrite j (Nat.zero_le j) (by omega))
    · rcases hget fd _ h with h | ⟨rfl, hf⟩ | ⟨-, hf⟩
      · obtain ⟨-, hj, rfl⟩ := hofr fd j h
        exact ⟨Nat.zero_le j, by omega, by rw [hold j hj]⟩
      · obtain rfl : j = m := File.readEnd.inj hf
        exact ⟨Nat.zero_le j, by omega, by rw [Function.update_self]⟩
      · cases hf
    · rcases hget fd _ h with h | ⟨-, hf⟩ | ⟨rfl, hf⟩
      · obtain ⟨-, hj, rfl⟩ := hofw fd j h
        exact ⟨Nat.zero_le j, by omega, by rw [hold j hj]⟩
      · cases hf
      · obtain rfl : j = m := File.writeEnd.inj hf
        exact ⟨Nat.zero_le j, by omega, by rw [Function.update_self]⟩

/-- Two files do not have one number. -/
theorem Wired.numbers (h : Wired pipeFd m 0 0 t) : Numbers pipeFd m := by
  have hread : ∀ j < m, t.get (pipeFd j).1 = some (.readEnd j) :=
    fun j hj => h.read j (Nat.zero_le j) hj
  have hwrite : ∀ j < m, t.get (pipeFd j).2 = some (.writeEnd j) :=
    fun j hj => h.write j (Nat.zero_le j) hj
  refine ⟨fun j hj => ⟨fun h0 => ?_, fun h1 => ?_⟩, fun j hj => ⟨fun h0 => ?_, fun h1 => ?_⟩,
    fun j hj k hk heq => ?_, fun j hj k hk heq => ?_, fun j hj k hk heq => ?_⟩
  · simpa [h0, h.stdin] using hread j hj
  · simpa [h1, h.stdout] using hread j hj
  · simpa [h0, h.stdin] using hwrite j hj
  · simpa [h1, h.stdout] using hwrite j hj
  · simpa [heq, hwrite k hk] using hread j hj
  · simpa [heq, hread k hk, eq_comm] using hread j hj
  · simpa [heq, hwrite k hk, eq_comm] using hwrite j hj

/-- The first write end is closed. -/
theorem Wired.closeWrite (h : Wired pipeFd m w r t) (hn : Numbers pipeFd m) (hw : w < m) :
    Wired pipeFd m (w + 1) r (t.close (pipeFd w).2) := by
  obtain ⟨h0, h1⟩ := hn.write w hw
  refine ⟨by rw [get_close, if_neg h0.symm, h.stdin], by rw [get_close, if_neg h1.symm, h.stdout],
    fun j hj hjm => ?_, fun j hj hjm => ?_, fun fd j hfd => ?_, fun fd j hfd => ?_⟩
  · rw [get_close, if_neg (hn.read_write j hjm w hw), h.read j hj hjm]
  · rw [get_close, if_neg fun heq => by have := hn.write_inj j hjm w hw heq; omega,
      h.write j (by omega) hjm]
  · rw [get_close] at hfd
    split_ifs at hfd
    exact h.of_read fd j hfd
  · rw [get_close] at hfd
    split_ifs at hfd with hne
    obtain ⟨hj, hjm, rfl⟩ := h.of_write fd j hfd
    have : j ≠ w := fun heq => hne (heq ▸ rfl)
    exact ⟨by omega, hjm, rfl⟩

/-- The first read end is closed. -/
theorem Wired.closeRead (h : Wired pipeFd m w r t) (hn : Numbers pipeFd m) (hr : r < m) :
    Wired pipeFd m w (r + 1) (t.close (pipeFd r).1) := by
  obtain ⟨h0, h1⟩ := hn.read r hr
  refine ⟨by rw [get_close, if_neg h0.symm, h.stdin], by rw [get_close, if_neg h1.symm, h.stdout],
    fun j hj hjm => ?_, fun j hj hjm => ?_, fun fd j hfd => ?_, fun fd j hfd => ?_⟩
  · rw [get_close, if_neg fun heq => by have := hn.read_inj j hjm r hr heq; omega,
      h.read j (by omega) hjm]
  · rw [get_close, if_neg (hn.read_write r hr j hjm).symm, h.write j hj hjm]
  · rw [get_close] at hfd
    split_ifs at hfd with hne
    obtain ⟨hj, hjm, rfl⟩ := h.of_read fd j hfd
    have : j ≠ r := fun heq => hne (heq ▸ rfl)
    exact ⟨by omega, hjm, rfl⟩
  · rw [get_close] at hfd
    split_ifs at hfd
    exact h.of_write fd j hfd

/-! ## Running code -/

/-- The calls of the code return one after the other, with the leader holding `leader`. -/
def Runs (leader : FdTable File) : List Syscall → Proc → Kernel → Proc → Kernel → Prop
  | [], p, k, p', k' => p' = p ∧ k' = k
  | c :: code, p, k, p', k' =>
    ∃ q l, c.exec leader p k = .done (q, l) ∧ Runs leader code q l p' k'

variable {leader : FdTable File} {p p' p'' : Proc} {k k' k'' : Kernel}

theorem exec_readAll {fd : Operand} {q : ℕ} (h : p.fds.get (fd.eval p) = some (.readEnd q))
    (hend : ¬Open leader p.fds (.writeEnd q)) :
    (Syscall.readAll fd).exec leader p k = .done ({ p with pipeData := k.pipes q },
      { k with pipes := Function.update k.pipes q [] }) := by
  simp only [Syscall.exec, h, if_neg hend]

theorem exec_write {fd : Operand} {q : ℕ} (h : p.fds.get (fd.eval p) = some (.writeEnd q))
    (hread : Open leader p.fds (.readEnd q)) :
    (Syscall.write fd).exec leader p k =
      .done (p, { k with pipes := Function.update k.pipes q (k.pipes q ++ p.pipeData) }) := by
  simp only [Syscall.exec, h, if_pos hread]

theorem exec_dup2 {fd : Operand} {new : ℕ} {f : File} (h : p.fds.get (fd.eval p) = some f) :
    (Syscall.dup2 fd new).exec leader p k = .done ({ p with fds := p.fds.place new f }, k) := by
  simp only [Syscall.exec, dup2, h, Option.map_some]

theorem Runs.append {code code' : List Syscall} (h : Runs leader code p k p' k')
    (h' : Runs leader code' p' k' p'' k'') : Runs leader (code ++ code') p k p'' k'' := by
  induction code generalizing p k with
  | nil =>
    obtain ⟨rfl, rfl⟩ := h
    exact h'
  | cons c code ih =>
    obtain ⟨q, l, hc, h⟩ := h
    exact ⟨q, l, hc, ih h⟩

theorem runs_closeAllFdExcept (n : ℕ) (exceptFd : Option ℕ) (isRead : Bool) :
    Runs leader (closeAllFdExcept pipeFd n exceptFd isRead) p k
      { p with fds := p.fds.closeAll (fdsExcept pipeFd n exceptFd isRead) } k := by
  unfold closeAllFdExcept
  induction fdsExcept pipeFd n exceptFd isRead generalizing p with
  | nil => exact ⟨rfl, rfl⟩
  | cons fd fds ih => exact ⟨_, _, rfl, ih⟩

theorem runs_dup2Code {fd new : ℕ} {f : File} (h : p.fds.get fd = some f) :
    Runs leader (dup2Code (some fd) new) p k { p with fds := p.fds.place new f } k := by
  exact ⟨_, _, exec_dup2 h, rfl, rfl⟩

/-- A descriptor that is copied if it is not -1. -/
theorem runs_dup2Code_none {new : ℕ} : Runs leader (dup2Code none new) p k p k :=
  ⟨rfl, rfl⟩

theorem mem_fdsExcept {n : ℕ} {exceptFd : Option ℕ} {isRead : Bool} {fd : ℕ} :
    fd ∈ fdsExcept pipeFd n exceptFd isRead ↔
      (∃ j < n, (if isRead then (pipeFd j).1 else (pipeFd j).2) = fd) ∧ some fd ≠ exceptFd := by
  simp [fdsExcept]

/-! ## The code of a command -/

/-- Descriptor 0 is wired to `f`, and the write ends from `w` on are open. -/
structure HalfWired (pipeFd : PipeFds) (m w : ℕ) (f : File) (t : FdTable File) : Prop where
  stdin : t.get 0 = some f
  stdout : t.get 1 = some .shellOut
  write : ∀ j, w ≤ j → j < m → t.get (pipeFd j).2 = some (.writeEnd j)
  of_write : ∀ fd j, t.get fd = some (.writeEnd j) → w ≤ j ∧ j < m ∧ fd = (pipeFd j).2

/-- Closing read ends keeps the rest. -/
theorem HalfWired.closeReads {f : File} (h : HalfWired pipeFd m w f t) (hn : Numbers pipeFd m)
    (exceptFd : Option ℕ) : HalfWired pipeFd m w f (t.closeAll (fdsExcept pipeFd m exceptFd true)) := by
  have hkeep : ∀ fd, (∀ j < m, (pipeFd j).1 ≠ fd) →
      (t.closeAll (fdsExcept pipeFd m exceptFd true)).get fd = t.get fd := by
    intro fd hfd
    rw [get_closeAll, if_neg]
    rintro hmem
    obtain ⟨⟨j, hj, hj'⟩, -⟩ := mem_fdsExcept.1 hmem
    exact hfd j hj hj'
  refine ⟨?_, ?_, fun j hj hjm => ?_, fun fd j hfd => ?_⟩
  · rw [hkeep 0 fun j hj => (hn.read j hj).1, h.stdin]
  · rw [hkeep 1 fun j hj => (hn.read j hj).2, h.stdout]
  · rw [hkeep _ fun k hk => hn.read_write k hk j hjm, h.write j hj hjm]
  · rw [get_closeAll] at hfd
    split_ifs at hfd
    exact h.of_write fd j hfd

/-- Another file as input. -/
theorem HalfWired.place {f : File} (h : HalfWired pipeFd m w f t) (hn : Numbers pipeFd m) (q : ℕ) :
    HalfWired pipeFd m w (.readEnd q) (t.place 0 (.readEnd q)) := by
  refine ⟨get_place_self .., by rw [get_place, if_neg (by decide), h.stdout],
    fun j hj hjm => ?_, fun fd j hfd => ?_⟩
  · rw [get_place, if_neg (hn.write j hjm).1, h.write j hj hjm]
  · rw [get_place] at hfd
    split_ifs at hfd
    · cases hfd
    · exact h.of_write fd j hfd

/-- A new pipe, of which the write end is closed. -/
theorem HalfWired.openPipe {f : File} (h : HalfWired pipeFd m w f t) (q : ℕ) :
    HalfWired pipeFd m w f (((t.place t.free (.readEnd q)).place
      (t.place t.free (.readEnd q)).free (.writeEnd q)).close
        (t.place t.free (.readEnd q)).free) := by
  have hkeep : ∀ fd g, t.get fd = some g →
      (((t.place t.free (.readEnd q)).place (t.place t.free (.readEnd q)).free
        (.writeEnd q)).close (t.place t.free (.readEnd q)).free).get fd = some g := by
    intro fd g hfd
    have hfd' := get_place_free hfd (.readEnd q)
    rw [get_close, if_neg (ne_free hfd'), get_place_free hfd']
  refine ⟨hkeep _ _ h.stdin, hkeep _ _ h.stdout, fun j hj hjm => hkeep _ _ (h.write j hj hjm),
    fun fd j hfd => ?_⟩
  rw [get_close] at hfd
  split_ifs at hfd with hclosed
  rcases get_of_get_place_free hfd with ⟨hnew, -⟩ | hfd
  · exact absurd hnew hclosed
  · rcases get_of_get_place_free hfd with ⟨-, hf⟩ | hfd
    · cases hf
    · exact h.of_write fd j hfd

theorem Wired.half (h : Wired pipeFd m w r t) : HalfWired pipeFd m w .shellIn t :=
  ⟨h.stdin, h.stdout, h.write, h.of_write⟩

/-- The first half, for a command that reads the upstream pipe itself. -/
theorem Wired.runs_read {i : ℕ} (h : Wired pipeFd m w (i - 1) p.fds) (hn : Numbers pipeFd m)
    (hpos : i ≠ 0) (hi : i ≤ m) :
    ∃ t, Runs leader (closeAllFdExcept pipeFd m (some (pipeFd (i - 1)).1) true ++
        dup2Code (some (pipeFd (i - 1)).1) 0) p k { p with fds := t } k ∧
      HalfWired pipeFd m w (.readEnd (i - 1)) t := by
  have hget : (p.fds.closeAll (fdsExcept pipeFd m (some (pipeFd (i - 1)).1) true)).get
      (pipeFd (i - 1)).1 = some (.readEnd (i - 1)) := by
    rw [get_closeAll, if_neg fun hm => (mem_fdsExcept.1 hm).2 rfl, h.read (i - 1) le_rfl (by omega)]
  exact ⟨_, (runs_closeAllFdExcept m _ true).append (runs_dup2Code hget),
    (h.half.closeReads hn _).place hn (i - 1)⟩

/-- The first half, for a command with an alternative on its right : its input is a new pipe with
all that was in the upstream pipe, and the pipe of the alternative has it as well. -/
theorem Wired.runs_tee {i : ℕ} (h : Wired pipeFd m i (i - 1) p.fds) (hn : Numbers pipeFd m)
    (hpos : i ≠ 0) (hi : i < m) (hcount : m ≤ k.count)
    (hend : ¬leader.Holds (.writeEnd (i - 1))) :
    ∃ p' k', Runs leader (teeCode pipeFd i ++ (closeAllFdExcept pipeFd m none true ++
        dup2Code none 0)) p k p' k' ∧
      HalfWired pipeFd m i (.readEnd k.count) p'.fds ∧ k'.started = k.started ∧
      k'.count = k.count + 1 ∧ k'.pipes k.count = k.pipes (i - 1) ∧
      k'.pipes i = k.pipes i ++ k.pipes (i - 1) ∧ k'.pipes (i - 1) = [] ∧
      ∀ j, j ≠ i - 1 → j ≠ i → j ≠ k.count → k'.pipes j = k.pipes j := by
  have hread := h.read (i - 1) le_rfl (by omega)
  have hnext := h.read i (by omega) hi
  have hwrite := h.write i le_rfl hi
  have hend' : ¬Open leader p.fds (.writeEnd (i - 1)) := by
    rintro (hl | hp)
    · exact hend hl
    · obtain ⟨fd, hfd⟩ := holds_iff.1 hp
      have := (h.of_write fd (i - 1) hfd).1
      omega
  -- the table with the new pipe, without and with its write end
  have hhalf := h.half.openPipe k.count
  generalize ht₁ : p.fds.place p.fds.free (.readEnd k.count) = t₁ at hhalf
  have hnew : t₁.get p.fds.free = some (.readEnd k.count) := ht₁ ▸ get_place_self ..
  have hnext₁ : t₁.get (pipeFd i).1 = some (.readEnd i) := ht₁ ▸ get_place_free hnext _
  generalize ht₂ : t₁.place t₁.free (.writeEnd k.count) = t₂ at hhalf
  have hnew₂ : t₂.get p.fds.free = some (.readEnd k.count) := ht₂ ▸ get_place_free hnew _
  have htemp : t₂.get t₁.free = some (.writeEnd k.count) := ht₂ ▸ get_place_self ..
  have hkeep : ∀ fd f, t₁.get fd = some f → (t₂.close t₁.free).get fd = some f :=
    fun fd f hfd => by rw [get_close, if_neg (ne_free hfd), ← ht₂, get_place_free hfd]
  have hhalf' := hhalf.place hn k.count
  generalize ht₄ : (t₂.close t₁.free).place 0 (.readEnd k.count) = t₄ at hhalf'
  have hnext' : t₄.get (pipeFd i).1 = some (.readEnd i) := by
    rw [← ht₄, get_place, if_neg (hn.read i hi).1, hkeep _ _ hnext₁]
  let d := k.pipes (i - 1)
  let f₁ := Function.update k.pipes (i - 1) []
  let f₂ := Function.update f₁ k.count []
  let f₃ := Function.update f₂ k.count (f₂ k.count ++ d)
  let f₄ := Function.update f₃ i (f₃ i ++ d)
  let temp := (p.fds.free, t₁.free)
  have hrun : Runs leader (teeCode pipeFd i) p k ⟨t₄, d, temp⟩ ⟨f₄, k.count + 1, k.started⟩ := by
    have hpipe : Syscall.pipe.exec leader ⟨p.fds, d, p.tempFd⟩ ⟨f₁, k.count, k.started⟩ =
        .done (⟨t₂, d, temp⟩, ⟨f₂, k.count + 1, k.started⟩) := by
      simp only [Syscall.exec, openFile, ht₁, ht₂]
      rfl
    have hwriteTemp : (Syscall.write .temp1).exec leader ⟨t₂, d, temp⟩
        ⟨f₂, k.count + 1, k.started⟩ = .done (⟨t₂, d, temp⟩, ⟨f₃, k.count + 1, k.started⟩) :=
      exec_write htemp (.inr (holds_iff.2 ⟨_, hnew₂⟩))
    have hdup : (Syscall.dup2 .temp0 0).exec leader ⟨t₂.close t₁.free, d, temp⟩
        ⟨f₃, k.count + 1, k.started⟩ = .done (⟨t₄, d, temp⟩, ⟨f₃, k.count + 1, k.started⟩) :=
      ht₄ ▸ exec_dup2 (hkeep _ _ hnew)
    have hwriteNext : (Syscall.write (.num (pipeFd i).2)).exec leader ⟨t₄, d, temp⟩
        ⟨f₃, k.count + 1, k.started⟩ = .done (⟨t₄, d, temp⟩, ⟨f₄, k.count + 1, k.started⟩) :=
      exec_write (hhalf'.write i le_rfl hi) (.inr (holds_iff.2 ⟨_, hnext'⟩))
    exact ⟨_, _, exec_readAll hread hend', _, _, hpipe, _, _, hwriteTemp, _, _, rfl, _, _, hdup,
      _, _, hwriteNext, rfl, rfl⟩
  refine ⟨_, _, hrun.append ((runs_closeAllFdExcept m none true).append runs_dup2Code_none),
    hhalf'.closeReads hn none, rfl, rfl, ?_, ?_, ?_, fun j h₁ h₂ h₃ => ?_⟩
  · have hci : k.count ≠ i := by omega
    have hc : f₄ k.count = d := by simp [f₄, f₃, f₂, hci]
    exact hc
  · have hci : i ≠ k.count := by omega
    have hii : i ≠ i - 1 := by omega
    have hc : f₄ i = k.pipes i ++ d := by simp [f₄, f₃, f₂, f₁, hci, hii]
    exact hc
  · have hic : i - 1 ≠ k.count := by omega
    have hii : i - 1 ≠ i := by omega
    have hc : f₄ (i - 1) = [] := by simp [f₄, f₃, f₂, f₁, hic, hii]
    exact hc
  · have hc : f₄ j = k.pipes j := by simp [f₄, f₃, f₂, f₁, h₁, h₂, h₃]
    exact hc

/-- The second half : the write ends are closed, all but the one that becomes descriptor 1. -/
theorem HalfWired.runs_write {f : File} (h : HalfWired pipeFd m w f p.fds) (hn : Numbers pipeFd m)
    {dst : Option ℕ} (hdst : ∀ e ∈ dst, w ≤ e ∧ e < m) (leader : FdTable File) (k : Kernel) :
    ∃ t, Runs leader (closeAllFdExcept pipeFd m (dst.map fun e => (pipeFd e).2) false ++
        dup2Code (dst.map fun e => (pipeFd e).2) 1) p k { p with fds := t } k ∧
      t.get 0 = some f ∧ t.get 1 = some ((dst.map .writeEnd).getD .shellOut) ∧
      ∀ q, t.Holds (.writeEnd q) → q ∈ dst := by
  generalize hfds : fdsExcept pipeFd m (dst.map fun e => (pipeFd e).2) false = fds
  have hmem : ∀ fd, fd ∈ fds ↔ (∃ j < m, (pipeFd j).2 = fd) ∧
      some fd ≠ dst.map fun e => (pipeFd e).2 := by
    intro fd
    rw [← hfds, mem_fdsExcept]
    simp
  have h0 : (p.fds.closeAll fds).get 0 = some f := by
    rw [get_closeAll, if_neg fun hm => ?_, h.stdin]
    obtain ⟨⟨j, hj, hj0⟩, -⟩ := (hmem 0).1 hm
    exact (hn.write j hj).1 hj0
  have h1 : (p.fds.closeAll fds).get 1 = some .shellOut := by
    rw [get_closeAll, if_neg fun hm => ?_, h.stdout]
    obtain ⟨⟨j, hj, hj0⟩, -⟩ := (hmem 1).1 hm
    exact (hn.write j hj).2 hj0
  have hend : ∀ fd q, (p.fds.closeAll fds).get fd = some (.writeEnd q) → q ∈ dst := by
    intro fd q hfd
    rw [get_closeAll] at hfd
    split_ifs at hfd with hm
    obtain ⟨-, hq, rfl⟩ := h.of_write fd q hfd
    by_contra hne
    refine hm ((hmem _).2 ⟨⟨q, hq, rfl⟩, fun heq => hne ?_⟩)
    obtain ⟨e, he, heq⟩ := Option.map_eq_some_iff.1 heq.symm
    obtain rfl := hn.write_inj e (hdst e he).2 q hq heq
    exact he
  have hclose : Runs leader (closeAllFdExcept pipeFd m (dst.map fun e => (pipeFd e).2) false) p k
      { p with fds := p.fds.closeAll fds } k :=
    hfds ▸ runs_closeAllFdExcept m _ false
  cases dst with
  | none =>
    refine ⟨p.fds.closeAll fds, hclose.append runs_dup2Code_none, h0, h1, fun q hq => ?_⟩
    obtain ⟨fd, hfd⟩ := holds_iff.1 hq
    exact hend fd q hfd
  | some e =>
    obtain ⟨hwe, hem⟩ := hdst e rfl
    have hget : (p.fds.closeAll fds).get (pipeFd e).2 = some (.writeEnd e) := by
      rw [get_closeAll, if_neg fun hm => ((hmem _).1 hm).2 rfl, h.write e hwe hem]
    refine ⟨(p.fds.closeAll fds).place 1 (.writeEnd e), hclose.append (runs_dup2Code hget), ?_, ?_,
      fun q hq => ?_⟩
    · rw [get_place, if_neg (by decide), h0]
    · exact get_place_self ..
    · obtain ⟨fd, hfd⟩ := holds_iff.1 hq
      rw [get_place] at hfd
      split_ifs at hfd
      · obtain rfl := File.writeEnd.inj (Option.some.inj hfd)
        rfl
      · exact hend fd q hfd

/-! ## Where a command writes -/

/-- The pipe behind the block of `i`, if there is one. -/
def outPipe (bs : List PipeCount) (i : ℕ) : Option ℕ :=
  if last bs i + 1 = (commands bs).length then none else some (last bs i)

variable {bs : List PipeCount} {i : ℕ} {cmd : Command}

theorem mem_outPipe {e : ℕ} :
    e ∈ outPipe bs i ↔ last bs i + 1 ≠ (commands bs).length ∧ e = last bs i := by
  unfold outPipe
  split_ifs with h <;> simp [h, eq_comm]

/-- The index arithmetic of the source finds the pipe behind the block. -/
theorem writeFd_eq (hi : i < (commands bs).length) (hcmd : (commands bs)[i]? = some cmd) :
    writeFd pipeFd (commands bs).length i cmd = (outPipe bs i).map fun e => (pipeFd e).2 := by
  obtain ⟨hle, hlt, hlen, hget⟩ := blockOf_spec hi
  obtain rfl := Option.some.inj (hcmd.symm.trans hget)
  unfold outPipe last
  generalize (commands bs).length = count at *
  generalize blockOf bs i = b at *
  obtain ⟨s, kind⟩ := b
  obtain ⟨d, rfl⟩ : ∃ d, i = s + d := ⟨i - s, by omega⟩
  clear hcmd hget
  simp only [Nat.add_sub_cancel_left] at *
  have hcount : count - 1 + 1 = count := by omega
  cases kind with
  | single =>
    obtain rfl : d = 0 := by simp only [PipeCount.size] at hlt; omega
    by_cases hc : s + 1 = count <;> simp [writeFd, PipeCount.command, PipeCount.size, hc, hcount]
  | double =>
    simp only [PipeCount.size] at hlt hlen
    obtain rfl | rfl : d = 0 ∨ d = 1 := by omega
    · have h1 : s + 1 ≠ count := by omega
      by_cases hc : s + 2 = count <;> simp [writeFd, PipeCount.command, PipeCount.size, h1, hc, hcount]
    · by_cases hc : s + 2 = count <;> simp [writeFd, PipeCount.command, PipeCount.size, hc, hcount]
  | triple =>
    simp only [PipeCount.size] at hlt hlen
    obtain rfl | rfl | rfl : d = 0 ∨ d = 1 ∨ d = 2 := by omega
    · have h1 : s + 1 ≠ count := by omega
      by_cases hc : s + 3 = count <;> simp [writeFd, PipeCount.command, PipeCount.size, h1, hc, hcount]
    · have h2 : s + 2 ≠ count := by omega
      by_cases hc : s + 3 = count <;> simp [writeFd, PipeCount.command, PipeCount.size, h2, hc, hcount]
    · by_cases hc : s + 3 = count <;> simp [writeFd, PipeCount.command, PipeCount.size, hc, hcount]

/-- The commands that copy their input are those with an alternative on their right. -/
theorem tees_iff (hi : i < (commands bs).length) (hcmd : (commands bs)[i]? = some cmd) :
    Tees (commands bs).length i cmd ↔ last bs i ≠ i := by
  obtain ⟨hle, hlt, hlen, hget⟩ := blockOf_spec hi
  obtain rfl := Option.some.inj (hcmd.symm.trans hget)
  unfold Tees last
  generalize (commands bs).length = count at *
  generalize blockOf bs i = b at *
  obtain ⟨s, kind⟩ := b
  obtain ⟨d, rfl⟩ : ∃ d, i = s + d := ⟨i - s, by omega⟩
  clear hcmd hget
  simp only [Nat.add_sub_cancel_left] at *
  cases kind with
  | single =>
    obtain rfl : d = 0 := by simp only [PipeCount.size] at hlt; omega
    simp [PipeCount.command, PipeCount.size]
  | double =>
    obtain rfl | rfl : d = 0 ∨ d = 1 := by simp only [PipeCount.size] at hlt; omega
    · simp [PipeCount.command, PipeCount.size] at *
      omega
    · simp [PipeCount.command, PipeCount.size] at *
  | triple =>
    obtain rfl | rfl | rfl : d = 0 ∨ d = 1 ∨ d = 2 := by simp only [PipeCount.size] at hlt; omega
    · simp [PipeCount.command, PipeCount.size] at *
      omega
    · simp [PipeCount.command, PipeCount.size] at *
      omega
    · simp [PipeCount.command, PipeCount.size] at *

/-- What is behind descriptor 0 of command `i`, and what its code has done to the pipes : the first
command reads the input of the shell, the last command of a block reads the upstream pipe, and
the others read a copy of what was there and leave a second one in the pipe in front of the
next command. -/
inductive Fed (bs : List PipeCount) (i : ℕ) (k k' : Kernel) : File → Prop
  | shell (hi : i = 0) (hpipes : k'.pipes = k.pipes) (hcount : k'.count = k.count) :
    Fed bs i k k' .shellIn
  | upstream (hi : i ≠ 0) (hlast : last bs i = i) (hpipes : k'.pipes = k.pipes)
      (hcount : k'.count = k.count) :
    Fed bs i k k' (.readEnd (i - 1))
  | copy (hi : i ≠ 0) (hlast : last bs i ≠ i) (hcount : k'.count = k.count + 1)
      (htemp : k'.pipes k.count = k.pipes (i - 1))
      (hnext : k'.pipes i = k.pipes i ++ k.pipes (i - 1))
      (hpipes : ∀ j, j ≠ i - 1 → j ≠ i → j ≠ k.count → k'.pipes j = k.pipes j) :
    Fed bs i k k' (.readEnd k.count)

/-- Descriptor 0 is `f`, descriptor 1 is the pipe `dst` or the output of the shell, and no other
write end is open. -/
structure Proc.WiredTo (p : Proc) (f : File) (dst : Option ℕ) : Prop where
  stdin : p.fds.get 0 = some f
  stdout : p.fds.get 1 = some ((dst.map .writeEnd).getD .shellOut)
  of_write : ∀ q, p.fds.Holds (.writeEnd q) → q ∈ dst

/-- The first half : the input. -/
theorem readCode_runs (hfirst : last bs 0 = 0) (hi : i < (commands bs).length)
    (hcmd : (commands bs)[i]? = some cmd) (hn : Numbers pipeFd ((commands bs).length - 1))
    (h : Wired pipeFd ((commands bs).length - 1) i (i - 1) p.fds)
    (hcount : (commands bs).length - 1 ≤ k.count)
    (hend : i ≠ 0 → ¬leader.Holds (.writeEnd (i - 1))) :
    ∃ p' k' f, Runs leader (readCode pipeFd (commands bs).length i cmd) p k p' k' ∧
      HalfWired pipeFd ((commands bs).length - 1) i f p'.fds ∧ k'.started = k.started ∧
      Fed bs i k k' f ∧ (k'.pipes (i - 1)).length ≤ (k.pipes (i - 1)).length := by
  have hle := le_last hi
  have hlt := last_lt hi
  have htees := tees_iff hi hcmd
  simp only [readCode]
  by_cases hi0 : i = 0
  · subst hi0
    rw [if_neg (mt htees.1 (not_not.2 hfirst)), if_neg fun h : 0 ≠ 0 => h rfl]
    exact ⟨_, _, _, runs_closeAllFdExcept _ none true, h.half.closeReads hn none, rfl,
      .shell rfl rfl rfl, le_rfl⟩
  · change i ≠ 0 at hi0
    rw [if_pos hi0]
    by_cases hlast : last bs i = i
    · rw [if_neg (mt htees.1 (not_not.2 hlast)), if_neg (mt htees.1 (not_not.2 hlast))]
      obtain ⟨t, hruns, hhalf⟩ := h.runs_read hn hi0 (by omega)
      exact ⟨_, _, _, hruns, hhalf, rfl, .upstream hi0 hlast rfl rfl, le_rfl⟩
    · rw [if_pos (htees.2 hlast), if_pos (htees.2 hlast)]
      obtain ⟨p', k', hruns, hhalf, hstarted, hcount', htemp, hnext, hread, hother⟩ :=
        h.runs_tee hn hi0 (by omega) hcount (hend hi0)
      exact ⟨p', k', _, hruns, hhalf, hstarted, .copy hi0 hlast hcount' htemp hnext hother,
        by rw [hread]; exact Nat.zero_le _⟩

/-- A command is wired to its input and to the pipe behind its block, provided that the upstream
pipe has no writer. -/
theorem wiringCode_runs (hfirst : last bs 0 = 0) (hi : i < (commands bs).length)
    (hcmd : (commands bs)[i]? = some cmd) (hn : Numbers pipeFd ((commands bs).length - 1))
    (h : Wired pipeFd ((commands bs).length - 1) i (i - 1) p.fds)
    (hcount : (commands bs).length - 1 ≤ k.count)
    (hend : i ≠ 0 → ¬leader.Holds (.writeEnd (i - 1))) :
    ∃ p' k' f, Runs leader (readCode pipeFd (commands bs).length i cmd ++
        writeCode pipeFd (commands bs).length i cmd) p k p' k' ∧
      p'.WiredTo f (outPipe bs i) ∧ k'.started = k.started ∧ Fed bs i k k' f ∧
      (k'.pipes (i - 1)).length ≤ (k.pipes (i - 1)).length := by
  have hle := le_last hi
  have hlt := last_lt hi
  obtain ⟨p₁, k₁, f, hruns, hhalf, hstarted, hfed, hread⟩ :=
    readCode_runs hfirst hi hcmd hn h hcount hend
  have hdst : ∀ e ∈ outPipe bs i, i ≤ e ∧ e < (commands bs).length - 1 := by
    intro e he
    obtain ⟨hne, rfl⟩ := mem_outPipe.1 he
    omega
  obtain ⟨t, hruns', h0, h1, hw⟩ := hhalf.runs_write hn hdst leader k₁
  rw [← writeFd_eq hi hcmd] at hruns'
  exact ⟨{ p₁ with fds := t }, k₁, f, hruns.append hruns', ⟨h0, h1, hw⟩, hstarted, hfed, hread⟩

/-- A command reaches `execvp`, wired as it should be. -/
theorem childCode_runs (hfirst : last bs 0 = 0) (hi : i < (commands bs).length)
    (hcmd : (commands bs)[i]? = some cmd) (hn : Numbers pipeFd ((commands bs).length - 1))
    (h : Wired pipeFd ((commands bs).length - 1) i (i - 1) p.fds)
    (hcount : (commands bs).length - 1 ≤ k.count)
    (hend : i ≠ 0 → ¬leader.Holds (.writeEnd (i - 1))) :
    ∃ p' k' f, Runs leader (childCode pipeFd (commands bs).length i cmd) p k p' k' ∧
      p'.WiredTo f (outPipe bs i) ∧ k'.started = k.started ++ [i] ∧ Fed bs i k k' f ∧
      (k'.pipes (i - 1)).length ≤ (k.pipes (i - 1)).length := by
  obtain ⟨p', k', f, hruns, hwired, hstarted, hfed, hread⟩ :=
    wiringCode_runs hfirst hi hcmd hn h hcount hend
  refine ⟨p', { k' with started := k'.started ++ [i] }, f, ?_, hwired, ?_, ?_, hread⟩
  · rw [childCode, ← List.append_assoc]
    exact hruns.append ⟨_, _, rfl, rfl, rfl⟩
  · rw [hstarted]
  · cases hfed with
    | shell hi hpipes hcount => exact .shell hi hpipes hcount
    | upstream hi hlast hpipes hcount => exact .upstream hi hlast hpipes hcount
    | copy hi hlast hcount htemp hnext hpipes => exact .copy hi hlast hcount htemp hnext hpipes

/-- What a call returns does not depend on what the leader holds. -/
theorem exec_agree {leader' : FdTable File} {c : Syscall} {x y : Proc × Kernel}
    (hx : c.exec leader p k = .done x) (hy : c.exec leader' p k = .done y) : x = y := by
  cases c with
  | readAll fd =>
    simp only [Syscall.exec] at hx hy
    rcases hf : p.fds.get (fd.eval p) with _ | ⟨_ | _ | q | q | _⟩ <;> simp only [hf] at hx hy
    all_goals first | cases hx | skip
    split_ifs at hx hy
    exact Outcome.done.inj (hx.symm.trans hy)
  | write fd =>
    simp only [Syscall.exec] at hx hy
    rcases hf : p.fds.get (fd.eval p) with _ | ⟨_ | _ | q | q | _⟩ <;> simp only [hf] at hx hy
    all_goals first | cases hx | skip
    split_ifs at hx hy
    exact Outcome.done.inj (hx.symm.trans hy)
  | pipe => exact Outcome.done.inj (hx.symm.trans hy)
  | close fd => exact Outcome.done.inj (hx.symm.trans hy)
  | dup2 fd new => exact Outcome.done.inj (hx.symm.trans hy)
  | execvp i => exact Outcome.done.inj (hx.symm.trans hy)

end NetProg.Shell
