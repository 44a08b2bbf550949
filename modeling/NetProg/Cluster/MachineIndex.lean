import NetProg.Cluster.Execute

/-!
# The machines that a pipeline looks at

`connectionHandler` uses the number of a machine as an index into `active_connections`,
`connection_ports` and `config->data`. `machineIndices` are the indices that it uses while it
runs a pipeline, in their order. A number that is larger than the number of machines ends the
pipeline. One that is smaller than -1 is not looked for : `n-5.ls` is a command for machine -5,
whose index is in front of the arrays.

`indicesInRange_iff` says for which pipelines all indices are inside the arrays. Which machines
are connected may change from command to command.
-/

namespace NetProg.Cluster

open Lib (CString)
open Lib.CString

/-- The indices of the loop over the machines, which ends after an error. -/
def broadcastIndices (active : Active) (text : List Char) (reply : ℤ → List Char → Reply)
    (output : Output) : List ℕ → Output → List ℤ
  | [], _ => []
  | i :: is, res => (i : ℤ) ::
      if active i = false then broadcastIndices active text reply output is res
      else
        match exchange text i (reply i) output with
        | some (.ok temp) =>
          match res.strcat temp.chars with
          | some res => broadcastIndices active text reply output is res
          | none => []
        | _ => []

/-- The indices that one turn of the loop over the commands uses. -/
def commandIndices (config : Config) (active : Active) (idx : ℕ) (cmd : Command)
    (reply : ℤ → List Char → Reply) (output : Output) : List ℤ :=
  if cmd.1 = 0 then
    broadcastIndices active cmd.2 reply output (List.range config.count) CString.empty
  else if machineOf idx cmd ≥ config.count then []
  else [machineOf idx cmd]

/-- The indices that the commands from number `k` on use. `active k` are the machines that are
connected when command `k` runs. -/
def machineIndices (config : Config) (active : ℕ → Active) (idx : ℕ)
    (reply : ℕ → ℤ → List Char → Reply) : ℕ → List Command → Output → List ℤ
  | _, [], _ => []
  | k, cmd :: cmds, output =>
    commandIndices config (active k) idx cmd (reply k) output ++
      match execCommand config (active k) idx cmd (reply k) output with
      | some (.ok output) => machineIndices config active idx reply (k + 1) cmds output
      | _ => []

/-- Whatever machines are connected and whatever they answer, each index is one of a machine. -/
def IndicesInRange (config : Config) (idx : ℕ) (cmds : List Command) : Prop :=
  ∀ active reply, ∀ i ∈ machineIndices config active idx reply 0 cmds CString.empty,
    0 ≤ i ∧ i < config.count

/-- No command is for a machine below -1, unless one in front of it is for a machine that does
not exist. -/
def NoneBelow (config : Config) (cmds : List Command) : Prop :=
  ∀ (before : List Command) (cmd : Command) (after : List Command),
    cmds = before ++ cmd :: after → (∀ c ∈ before, c.1 ≤ config.count) → -1 ≤ cmd.1

theorem noneBelow_cons {config : Config} {cmd : Command} {cmds : List Command} :
    NoneBelow config (cmd :: cmds) ↔
      -1 ≤ cmd.1 ∧ (cmd.1 ≤ config.count → NoneBelow config cmds) := by
  constructor
  · intro h
    refine ⟨h [] cmd cmds rfl fun _ hc => absurd hc List.not_mem_nil, ?_⟩
    rintro hcmd before c after rfl hbefore
    exact h (cmd :: before) c after rfl (List.forall_mem_cons.2 ⟨hcmd, hbefore⟩)
  · rintro ⟨hcmd, hcmds⟩ before c after heq hbefore
    cases before with
    | nil =>
      obtain ⟨rfl, -⟩ := List.cons.inj heq
      exact hcmd
    | cons c' before =>
      obtain ⟨rfl, htail⟩ := List.cons.inj heq
      obtain ⟨hc', hbefore⟩ := List.forall_mem_cons.1 hbefore
      exact hcmds hc' before c after htail hbefore

/-! ## One command -/

variable {config : Config} {idx : ℕ}

theorem mem_of_mem_broadcastIndices {active : Active} {text : List Char}
    {reply : ℤ → List Char → Reply} {output res : Output} {is : List ℕ} {j : ℤ}
    (h : j ∈ broadcastIndices active text reply output is res) : ∃ i ∈ is, j = i := by
  induction is generalizing res with
  | nil => cases h
  | cons i is ih =>
    rw [broadcastIndices] at h
    rcases List.mem_cons.1 h with rfl | h
    · exact ⟨i, List.mem_cons_self, rfl⟩
    · have hrest : ∃ res', j ∈ broadcastIndices active text reply output is res' := by
        split at h
        · exact ⟨res, h⟩
        · split at h
          · split at h
            · exact ⟨_, h⟩
            · cases h
          · cases h
      obtain ⟨res', h⟩ := hrest
      obtain ⟨i', hi', hj⟩ := ih h
      exact ⟨i', List.mem_cons_of_mem _ hi', hj⟩

/-- The indices of a command for a machine from -1 on are in range. -/
theorem commandIndices_inRange {active : Active} {cmd : Command}
    {reply : ℤ → List Char → Reply} {output : Output} (hcmd : -1 ≤ cmd.1) :
    ∀ i ∈ commandIndices config active idx cmd reply output, 0 ≤ i ∧ i < config.count := by
  intro j hj
  unfold commandIndices at hj
  split_ifs at hj with hzero hcount
  · obtain ⟨i, hi, rfl⟩ := mem_of_mem_broadcastIndices hj
    exact ⟨Int.natCast_nonneg i, by exact_mod_cast List.mem_range.1 hi⟩
  · cases hj
  · obtain rfl := List.mem_singleton.1 hj
    refine ⟨?_, not_le.1 hcount⟩
    unfold machineOf
    split_ifs
    · exact Int.natCast_nonneg idx
    · omega

/-- A command below -1 looks in front of the arrays. -/
theorem mem_commandIndices_of_lt {active : Active} {cmd : Command}
    {reply : ℤ → List Char → Reply} {output : Output} (hcmd : cmd.1 < -1) :
    cmd.1 - 1 ∈ commandIndices config active idx cmd reply output := by
  have hmachine : machineOf idx cmd = cmd.1 - 1 := if_neg (by omega)
  rw [commandIndices, if_neg (by omega), hmachine, if_neg (by omega)]
  exact List.mem_singleton_self _

/-- A command that gives an output was for a machine that exists. -/
theorem le_count_of_execCommand {active : Active} {cmd : Command}
    {reply : ℤ → List Char → Reply} {output output' : Output}
    (h : execCommand config active idx cmd reply output = some (.ok output')) :
    cmd.1 ≤ config.count := by
  unfold execCommand at h
  split_ifs at h with hzero
  · omega
  · simp only at h
    by_cases hcount : machineOf idx cmd ≥ config.count
    · rw [if_pos hcount] at h
      obtain ⟨_, -, herror⟩ := Option.map_eq_some_iff.1 h
      cases herror
    · unfold machineOf at hcount
      split_ifs at hcount
      · omega
      · omega

/-- When every machine answers with an empty output, a command for a machine that exists gives
one. -/
theorem execCommand_silent {cmd : Command} (hidx : idx < config.count)
    (htext : cmd.2.length ≤ maxCommandSize) (hlow : -1 ≤ cmd.1) (hhigh : cmd.1 ≤ config.count)
    (output : Output) :
    execCommand config (fun _ => true) idx cmd (fun _ _ => .output []) output =
      some (.ok CString.empty) := by
  have hnamed : cmd.1 ≠ 0 → Available config (fun _ => true) idx cmd := by
    intro hzero
    unfold Available machineOf
    split_ifs
    · exact ⟨Int.natCast_nonneg idx, by exact_mod_cast hidx, rfl⟩
    · exact ⟨by omega, by omega, rfl⟩
  have hnil : commandOutput config (fun _ => true) idx (fun _ _ => []) cmd output.chars = [] := by
    unfold commandOutput
    split_ifs
    · simp
    · rfl
  have hempty : ∀ (_ : ℤ) (_ : List Char), ([] : List Char).length ≤ maxOutputSize ∧ nul ∉ [] :=
    fun _ _ => ⟨Nat.zero_le _, List.not_mem_nil⟩
  rw [execCommand_eq htext hnamed hempty output, hnil]
  rfl

/-! ## Pipelines -/

theorem machineIndices_inRange {active : ℕ → Active} {reply : ℕ → ℤ → List Char → Reply}
    {cmds : List Command} (h : NoneBelow config cmds) (k : ℕ) (output : Output) :
    ∀ i ∈ machineIndices config active idx reply k cmds output, 0 ≤ i ∧ i < config.count := by
  induction cmds generalizing k output with
  | nil => exact fun i hi => absurd hi List.not_mem_nil
  | cons cmd cmds ih =>
    obtain ⟨hcmd, hcmds⟩ := noneBelow_cons.1 h
    intro i hi
    rw [machineIndices] at hi
    rcases List.mem_append.1 hi with hi | hi
    · exact commandIndices_inRange hcmd i hi
    · split at hi
      · rename_i output' hexec
        exact ih (hcmds (le_count_of_execCommand hexec)) (k + 1) output' i hi
      · cases hi

/-- When every machine is connected and answers, the pipeline comes to every command behind
machines that exist. -/
theorem noneBelow_of_silent {cmds : List Command} (hidx : idx < config.count)
    (htext : ∀ cmd ∈ cmds, cmd.2.length ≤ maxCommandSize) {k : ℕ} {output : Output}
    (h : ∀ i ∈ machineIndices config (fun _ _ => true) idx (fun _ _ _ => .output []) k cmds output,
      0 ≤ i ∧ i < config.count) : NoneBelow config cmds := by
  induction cmds generalizing k output with
  | nil => exact fun before _ _ heq => absurd heq (by simp)
  | cons cmd cmds ih =>
    rw [machineIndices] at h
    obtain ⟨hfirst, hrest⟩ := List.forall_mem_append.1 h
    have hlow : -1 ≤ cmd.1 := by
      by_contra hlt
      have hneg := (hfirst _ (mem_commandIndices_of_lt (by omega))).1
      omega
    refine noneBelow_cons.2 ⟨hlow, fun hhigh => ?_⟩
    rw [execCommand_silent hidx (htext cmd List.mem_cons_self) hlow hhigh output] at hrest
    exact ih (fun c hc => htext c (List.mem_cons_of_mem _ hc)) hrest

/-- The handler in slot `idx` uses only indices of machines, whatever machines are connected and
whatever they answer, exactly when no command is for a machine below -1, unless one in front of
it is for a machine that does not exist. -/
theorem indicesInRange_iff (config : Config) {idx : ℕ} (hidx : idx < config.count)
    (bytes : List Char) (hbytes : bytes.length ≤ maxCommandSize) {cmds : List Command}
    (hcmds : createCommandPipe (cstr bytes 0) = some cmds) :
    IndicesInRange config idx cmds ↔ NoneBelow config cmds := by
  have hline : (cstr bytes 0).length ≤ maxCommandSize :=
    (List.takeWhile_sublist _).length_le.trans hbytes
  constructor
  · intro h
    refine noneBelow_of_silent hidx (fun cmd hcmd => ?_) (h (fun _ _ => true) _)
    exact (length_text_le hcmds hcmd).trans hline
  · exact fun h active reply => machineIndices_inRange h 0 _

/-- A local command, and one for the second of two machines. -/
theorem indicesInRange_iff_twoMachines :
    IndicesInRange twoMachines 0 [(-1, ['l', 's', ' ']), (2, ['w', 'c'])] ↔
      NoneBelow twoMachines [(-1, ['l', 's', ' ']), (2, ['w', 'c'])] :=
  indicesInRange_iff twoMachines (by decide) "ls |n2.wc".toList (by decide) (by decide)

/-- The machine of `n-5.ls` has index -6. -/
theorem not_indicesInRange_negative :
    createCommandPipe (cstr "n-5.ls".toList 0) = some [(-5, ['l', 's'])] ∧
      ¬IndicesInRange twoMachines 0 [(-5, ['l', 's'])] := by
  refine ⟨by decide, fun h => ?_⟩
  have hmem : (-6 : ℤ) ∈ machineIndices twoMachines (fun _ _ => true) 0
      (fun _ _ _ => .output []) 0 [(-5, ['l', 's'])] CString.empty := by decide
  exact absurd (h _ _ _ hmem).1 (by decide)

end NetProg.Cluster
