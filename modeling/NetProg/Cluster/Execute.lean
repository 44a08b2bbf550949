import NetProg.Cluster.Handler
import NetProg.Lib.CString
import Mathlib.Data.List.TakeWhile

/-!
# Running a pipeline on the cluster

`connectionHandler` runs the commands of a pipeline one after the other. A command is sent
with the output before it as its input, to one machine or to all that are connected. The
strings are in arrays of fixed size, and no copy is checked : `none` here is a copy past the
end of `output`, `res`, `temp` or `input`, or a look at `active_connections` in front of it.

A machine's answer is read with one `read`. `execPipe_iff` says when the pipeline runs as it
should. The output of a single machine always fits. The outputs of all machines are put
together in an array for one.
-/

namespace NetProg.Cluster

open Lib (CString)
open Lib.CString

/-- `MAX_OUTPUT_SIZE`. -/
def maxOutputSize : ℕ :=
  1024

/-- The arrays `output`, `res` and `temp`. -/
abbrev Output :=
  CString Char (maxOutputSize + 1)

/-- What is sent to a machine : the command and its input, each with the byte that ends it. -/
def message (text input : List Char) : List Char :=
  text ++ nul :: input ++ [nul]

/-- Copy the command and the output before it into `input`. -/
def fillInput (text : List Char) (output : Output) : Option (List Char) :=
  if text.length + 1 + output.chars.length < maxCommandSize + 1 + maxOutputSize + 1 then
    some (message text output.chars)
  else none

/-- What a read of `MAX_OUTPUT_SIZE` bytes leaves in an array. -/
def readOutput (bytes : List Char) : Output where
  chars := cstr (bytes.take maxOutputSize) 0
  length_lt := Nat.lt_succ_of_le ((List.takeWhile_sublist _).length_le.trans (List.length_take_le _ _))

/-- Send a command to machine `i` and read its output. An error becomes the output of the
pipeline. -/
def exchange (text : List Char) (i : ℤ) (reply : List Char → Reply) (output : Output) :
    Option (Except Output Output) := do
  let input ← fillInput text output
  match sendCommand text i (reply input) with
  | .error msg => (strcpy msg).map .error
  | .ok bytes => some (.ok (readOutput bytes))

/-- The loop over the connected machines. `res` has the outputs so far. -/
def broadcast (text : List Char) (reply : ℤ → List Char → Reply) (output : Output) :
    List ℕ → Output → Option (Except Output Output)
  | [], res => some (.ok res)
  | i :: is, res => do
    match ← exchange text i (reply i) output with
    | .error msg => some (.error msg)
    | .ok temp =>
      let res ← res.strcat temp.chars
      broadcast text reply output is res

/-- The machines that are connected, in their order. -/
def connected (config : Config) (active : Active) : List ℕ :=
  (List.range config.count).filter fun i => active i

/-- The index of the machine that runs a command for the client in slot `idx`. -/
def machineOf (idx : ℕ) (cmd : Command) : ℤ :=
  if cmd.1 = -1 then idx else cmd.1 - 1

/-- One turn of the loop over the commands. -/
def execCommand (config : Config) (active : Active) (idx : ℕ) (cmd : Command)
    (reply : ℤ → List Char → Reply) (output : Output) : Option (Except Output Output) :=
  if cmd.1 = 0 then broadcast cmd.2 reply output (connected config active) CString.empty
  else
    let machine := machineOf idx cmd
    if machine ≥ config.count then
      (strcpy ("Invalid machine name found: n".toList ++ decimal (machine + 1) ++
        ". Please verify that it exists in config in correct order.\n".toList)).map .error
    else if machine < 0 then none
    else if active machine.toNat = false then
      (strcpy ("Machine n".toList ++ decimal (machine + 1) ++ " is not connected.".toList)).map
        .error
    else exchange cmd.2 machine (reply machine) output

/-- The loop over the commands, from command number `k` on. -/
def execPipe (config : Config) (active : Active) (idx : ℕ) (reply : ℕ → ℤ → List Char → Reply) :
    ℕ → List Command → Output → Option Output
  | _, [], output => some output
  | k, cmd :: cmds, output => do
    match ← execCommand config active idx cmd (reply k) output with
    | .error msg => some msg
    | .ok output => execPipe config active idx reply (k + 1) cmds output

/-! ## The handler without arrays -/

/-- The texts in the arrays. -/
def texts : Except Output Output → Except (List Char) (List Char)
  | .error msg => .error msg.chars
  | .ok output => .ok output.chars

/-- An answer that fits in an array and is a string. -/
def IsText : Reply → Prop
  | .output bytes => bytes.length ≤ maxOutputSize ∧ nul ∉ bytes
  | _ => True

theorem readOutput_of_length_le {bytes : List Char} (hlen : bytes.length ≤ maxOutputSize)
    (hnul : nul ∉ bytes) :
    readOutput bytes = ⟨bytes, Nat.lt_succ_of_le hlen⟩ := by
  have hne : ∀ c ∈ bytes, (c != nul) = true := fun c hc =>
    bne_iff_ne.2 (ne_of_mem_of_not_mem hc hnul)
  ext1
  simp only [readOutput, cstr, List.drop_zero, List.take_of_length_le hlen,
    List.takeWhile_eq_self_iff.2 hne]

theorem eq_message_of_fillInput {text input : List Char} {output : Output}
    (h : fillInput text output = some input) : input = message text output.chars := by
  unfold fillInput at h
  split at h
  · exact (Option.some.inj h).symm
  · cases h

theorem texts_of_error {msg : List Char} {r : Except Output Output}
    (h : (strcpy msg).map .error = some r) : texts r = .error msg := by
  obtain ⟨dst, hdst, rfl⟩ := Option.map_eq_some_iff.1 h
  rw [texts, chars_of_strcpy hdst]

theorem texts_of_exchange {text : List Char} {i : ℤ} {reply : List Char → Reply}
    {output : Output} {r : Except Output Output}
    (hreply : IsText (reply (message text output.chars)))
    (h : exchange text i reply output = some r) :
    texts r = sendCommand text i (reply (message text output.chars)) := by
  unfold exchange at h
  obtain ⟨input, hinput, h⟩ := Option.bind_eq_some_iff.1 h
  rw [eq_message_of_fillInput hinput] at h
  cases hcase : reply (message text output.chars) with
  | writeError => exact texts_of_error (by rwa [hcase] at h)
  | readError => exact texts_of_error (by rwa [hcase] at h)
  | output bytes =>
    rw [hcase] at h hreply
    obtain rfl := Option.some.inj h
    rw [readOutput_of_length_le hreply.1 hreply.2]
    rfl

theorem texts_of_broadcast {text : List Char} {reply : ℤ → List Char → Reply} {output : Output}
    (hreply : ∀ i, IsText (reply i (message text output.chars))) {is : List ℕ} {res : Output}
    {r : Except Output Output} (h : broadcast text reply output is res = some r) :
    texts r = is.foldlM (fun (res : List Char) (i : ℕ) =>
      (sendCommand text i (reply i (message text output.chars))).map fun out => res ++ out)
      res.chars := by
  induction is generalizing res with
  | nil =>
    obtain rfl := Option.some.inj h
    rfl
  | cons i is ih =>
    obtain ⟨e, he, h⟩ := Option.bind_eq_some_iff.1 h
    rw [List.foldlM_cons, ← texts_of_exchange (hreply i) he]
    cases e with
    | error msg =>
      obtain rfl := Option.some.inj h
      rfl
    | ok temp =>
      obtain ⟨res', hres, h⟩ := Option.bind_eq_some_iff.1 h
      rw [ih h, chars_of_strcpy hres]
      rfl

/-- A turn of the loop that keeps inside the arrays does what `runCommand` does. -/
theorem texts_of_execCommand {config : Config} {active : Active} {idx : ℕ} {cmd : Command}
    {reply : ℤ → List Char → Reply} {output : Output} {r : Except Output Output} {stray : Bool}
    (hreply : ∀ i, IsText (reply i (message cmd.2 output.chars)))
    (h : execCommand config active idx cmd reply output = some r) :
    texts r =
      runCommand config active idx cmd (fun i => reply i (message cmd.2 output.chars)) stray := by
  unfold execCommand at h
  unfold runCommand
  by_cases hmachine : cmd.1 = 0
  · rw [if_pos hmachine] at h ⊢
    -- `runCommand` goes through the machines as integers
    rw [bind_pure_comp, List.map_eq_map, List.foldlM_map]
    exact texts_of_broadcast hreply h
  · rw [if_neg hmachine] at h ⊢
    simp only at h ⊢
    rw [show (if cmd.1 = -1 then (idx : ℤ) else cmd.1 - 1) = machineOf idx cmd from rfl]
    generalize machineOf idx cmd = machine at h ⊢
    by_cases hcount : machine ≥ config.count
    · rw [if_pos hcount] at h ⊢
      exact texts_of_error h
    · rw [if_neg hcount] at h ⊢
      by_cases hneg : machine < 0
      · rw [if_pos hneg] at h
        cases h
      · rw [if_neg hneg] at h
        rw [if_pos (not_lt.1 hneg)]
        by_cases hactive : active machine.toNat = false
        · rw [if_pos hactive] at h ⊢
          exact texts_of_error h
        · rw [if_neg hactive] at h ⊢
          exact texts_of_exchange (hreply machine) h

/-! ## What a pipeline should do -/

/-- The output of a command, from its input and the answers of the machines. -/
def commandOutput (config : Config) (active : Active) (idx : ℕ) (answer : ℤ → List Char → List Char)
    (cmd : Command) (input : List Char) : List Char :=
  if cmd.1 = 0 then (connected config active).flatMap fun i : ℕ => answer i (message cmd.2 input)
  else answer (machineOf idx cmd) (message cmd.2 input)

/-- The output of the commands from number `k` on. -/
def pipeOutput (config : Config) (active : Active) (idx : ℕ)
    (answer : ℕ → ℤ → List Char → List Char) (k : ℕ) (cmds : List Command) (input : List Char) :
    List Char :=
  (cmds.zipIdx k).foldl
    (fun input p => commandOutput config active idx (answer p.2) p.1 input) input

/-- The answers to a broadcast are together as short as one output. -/
def BroadcastsFit (config : Config) (active : Active) (idx : ℕ)
    (answer : ℕ → ℤ → List Char → List Char) (k : ℕ) (cmds : List Command) (input : List Char) :
    Prop :=
  ∀ j cmd, cmds[j]? = some cmd → cmd.1 = 0 →
    (commandOutput config active idx (answer (k + j)) cmd
      (pipeOutput config active idx answer k (cmds.take j) input)).length ≤ maxOutputSize

/-- The machine of a command is in the config and connected. -/
def Available (config : Config) (active : Active) (idx : ℕ) (cmd : Command) : Prop :=
  0 ≤ machineOf idx cmd ∧ machineOf idx cmd < config.count ∧
    active (machineOf idx cmd).toNat = true

/-! ## The texts of the commands -/

theorem sublist_of_mem_tokens {s tok : List Char} (h : tok ∈ tokens s) : tok.Sublist s := by
  obtain ⟨i, hi⟩ := List.mem_iff_getElem?.1 (List.mem_of_mem_filter h)
  have hsplit : ((s.splitOn '|').intersperse ['|'])[2 * i]? = some tok := by
    rwa [List.getElem?_intersperse_two_mul]
  have hsub := List.sublist_flatten_of_mem (List.mem_of_getElem? hsplit)
  rwa [show ((s.splitOn '|').intersperse ['|']).flatten = s from List.intercalate_splitOn '|'] at hsub

theorem Parsed.text_sublist (p : Parsed) (tok : List Char) : (p.text tok).Sublist tok := by
  unfold Parsed.text
  split
  · exact (List.dropLast_sublist _).trans (List.drop_sublist _ _)
  · exact List.drop_sublist _ _

/-- Every command comes from a token. -/
theorem exists_token_of_mem {toks : List (List Char)} {cmds : List Command} {cmd : Command}
    (hcmds : toks.mapM createCommand = some cmds) (hcmd : cmd ∈ cmds) :
    ∃ tok ∈ toks, createCommand tok = some cmd := by
  induction toks generalizing cmds with
  | nil =>
    cases hcmds
    cases hcmd
  | cons tok toks ih =>
    rw [List.mapM_cons, Option.bind_eq_bind, Option.bind_eq_some_iff] at hcmds
    obtain ⟨c, hc, hcmds⟩ := hcmds
    obtain ⟨cs, hcs, heq⟩ := Option.bind_eq_some_iff.1 hcmds
    obtain rfl := Option.some.inj heq
    rcases List.mem_cons.1 hcmd with rfl | hmem
    · exact ⟨tok, List.mem_cons_self, hc⟩
    · obtain ⟨t, ht, hparse⟩ := ih hcs hmem
      exact ⟨t, List.mem_cons_of_mem _ ht, hparse⟩

/-- A command is a part of the line that it is in. -/
theorem text_sublist {line : List Char} {cmds : List Command} {cmd : Command}
    (hcmds : createCommandPipe line = some cmds) (hcmd : cmd ∈ cmds) : cmd.2.Sublist line := by
  obtain ⟨tok, htok, hparse⟩ := exists_token_of_mem hcmds hcmd
  obtain ⟨p, -, rfl⟩ := Option.map_eq_some_iff.1 hparse
  exact (p.text_sublist tok).trans (sublist_of_mem_tokens htok)

/-- A command is no longer than the line that it is in. -/
theorem length_text_le {line : List Char} {cmds : List Command} {cmd : Command}
    (hcmds : createCommandPipe line = some cmds) (hcmd : cmd ∈ cmds) :
    cmd.2.length ≤ line.length :=
  (text_sublist hcmds hcmd).length_le

/-! ## One command -/

section Command

variable {config : Config} {active : Active} {idx : ℕ} {answer : ℤ → List Char → List Char}

/-- A command line and an output always have room in `input`. -/
theorem fillInput_eq_some {text : List Char} (htext : text.length ≤ maxCommandSize)
    (output : Output) :
    fillInput text output = some (message text output.chars) := by
  have := output.length_lt
  exact if_pos (by omega)

/-- A machine that answers with a short text gives that text. -/
theorem exchange_eq_some {text : List Char} (htext : text.length ≤ maxCommandSize) (i : ℤ)
    (output : Output) (hlen : (answer i (message text output.chars)).length ≤ maxOutputSize)
    (hnul : nul ∉ answer i (message text output.chars)) :
    exchange text i (fun input => .output (answer i input)) output =
      some (.ok ⟨answer i (message text output.chars), Nat.lt_succ_of_le hlen⟩) := by
  rw [exchange, fillInput_eq_some htext]
  simp only [Option.bind_eq_bind, Option.bind_some, sendCommand, readOutput_of_length_le hlen hnul]

/-- The loop over the machines puts their answers one behind the other, as long as they fit. -/
theorem broadcast_eq {text : List Char} (htext : text.length ≤ maxCommandSize) (output : Output)
    (hanswer : ∀ i input, (answer i input).length ≤ maxOutputSize ∧ nul ∉ answer i input)
    (is : List ℕ) (res : Output) :
    broadcast text (fun i input => .output (answer i input)) output is res =
      (strcpy (res.chars ++ is.flatMap fun i : ℕ => answer i (message text output.chars))).map .ok := by
  have hfold : broadcast text (fun i input => .output (answer i input)) output is res =
      ((is.map fun i : ℕ => answer i (message text output.chars)).foldlM strcat res).map .ok := by
    induction is generalizing res with
    | nil => rfl
    | cons i is ih =>
      obtain ⟨hlen, hnul⟩ := hanswer i (message text output.chars)
      rw [broadcast, exchange_eq_some htext i output hlen hnul, List.map_cons, List.foldlM_cons]
      cases hres : res.strcat (answer i (message text output.chars)) with
      | none => simp [hres]
      | some res' => simpa [hres] using ih res'
  rw [hfold, foldlM_strcat, List.flatMap_def]

/-- A command gives its output when that fits in an array. -/
theorem execCommand_eq {cmd : Command} (htext : cmd.2.length ≤ maxCommandSize)
    (hnamed : cmd.1 ≠ 0 → Available config active idx cmd)
    (hanswer : ∀ i input, (answer i input).length ≤ maxOutputSize ∧ nul ∉ answer i input)
    (output : Output) :
    execCommand config active idx cmd (fun i input => .output (answer i input)) output =
      (strcpy (commandOutput config active idx answer cmd output.chars)).map .ok := by
  unfold execCommand commandOutput
  by_cases hmachine : cmd.1 = 0
  · rw [if_pos hmachine, if_pos hmachine, broadcast_eq htext output hanswer]
    rfl
  · obtain ⟨hpos, hlt, hactive⟩ := hnamed hmachine
    obtain ⟨hlen, hnul⟩ := hanswer (machineOf idx cmd) (message cmd.2 output.chars)
    simp only [if_neg hmachine, if_neg hlt.not_ge, if_neg hpos.not_gt, hactive]
    rw [if_neg (by simp), exchange_eq_some htext _ output hlen hnul,
      strcpy_of_lt (Nat.lt_succ_of_le hlen)]
    rfl

theorem length_commandOutput_le {cmd : Command} (hmachine : cmd.1 ≠ 0)
    (hanswer : ∀ i input, (answer i input).length ≤ maxOutputSize ∧ nul ∉ answer i input)
    (input : List Char) :
    (commandOutput config active idx answer cmd input).length ≤ maxOutputSize := by
  rw [commandOutput, if_neg hmachine]
  exact (hanswer _ _).1

end Command

/-! ## The whole pipeline -/

section Pipe

variable {config : Config} {active : Active} {idx : ℕ} {answer : ℕ → ℤ → List Char → List Char}

theorem broadcastsFit_cons {k : ℕ} {cmd : Command} {cmds : List Command} {input : List Char} :
    BroadcastsFit config active idx answer k (cmd :: cmds) input ↔
      (cmd.1 = 0 → (commandOutput config active idx (answer k) cmd input).length ≤ maxOutputSize) ∧
        BroadcastsFit config active idx answer (k + 1) cmds
          (commandOutput config active idx (answer k) cmd input) := by
  refine ⟨fun h => ⟨fun hmachine => h 0 cmd rfl hmachine, fun j c hc hmachine => ?_⟩,
    fun ⟨hcmd, hcmds⟩ j c hc hmachine => ?_⟩
  · have := h (j + 1) c hc hmachine
    rwa [← Nat.add_assoc, Nat.add_right_comm] at this
  · cases j with
    | zero =>
      obtain rfl := Option.some.inj hc
      exact hcmd hmachine
    | succ j =>
      have := hcmds j c hc hmachine
      rwa [Nat.add_right_comm] at this

/-- The commands from number `k` on run through exactly when the broadcasts among them fit. -/
theorem execPipe_from {cmds : List Command}
    (htext : ∀ cmd ∈ cmds, cmd.2.length ≤ maxCommandSize)
    (hnamed : ∀ cmd ∈ cmds, cmd.1 ≠ 0 → Available config active idx cmd)
    (hanswer : ∀ k i input, (answer k i input).length ≤ maxOutputSize ∧ nul ∉ answer k i input)
    (k : ℕ) (output : Output) :
    (execPipe config active idx (fun k i input => .output (answer k i input)) k cmds output).map
        CString.chars = some (pipeOutput config active idx answer k cmds output.chars) ↔
      BroadcastsFit config active idx answer k cmds output.chars := by
  induction cmds generalizing k output with
  | nil => exact iff_of_true rfl fun j c hc => by cases hc
  | cons cmd cmds ih =>
    have hcmd := execCommand_eq (htext cmd List.mem_cons_self) (hnamed cmd List.mem_cons_self)
      (hanswer k) output
    rw [broadcastsFit_cons, execPipe, hcmd]
    by_cases hfit : (commandOutput config active idx (answer k) cmd output.chars).length ≤
        maxOutputSize
    · rw [strcpy_of_lt (Nat.lt_succ_of_le hfit), and_iff_right fun _ => hfit]
      exact ih (fun c hc => htext c (List.mem_cons_of_mem _ hc))
        (fun c hc => hnamed c (List.mem_cons_of_mem _ hc)) (k + 1) _
    · rw [strcpy_eq_none (Nat.succ_le_of_lt (not_le.1 hfit))]
      refine iff_of_false (by simp) fun h => hfit (h.1 ?_)
      by_contra hmachine
      exact hfit (length_commandOutput_le hmachine (hanswer k) _)

/-- `connectionHandler` gives its client the output that the pipeline should have, and keeps
inside its arrays, exactly when the answers to each broadcast together fit in one array. -/
theorem execPipe_iff (config : Config) (active : Active) (idx : ℕ) (bytes : List Char)
    {cmds : List Command} (answer : ℕ → ℤ → List Char → List Char)
    (hbytes : bytes.length ≤ maxCommandSize)
    (hcmds : createCommandPipe (cstr bytes 0) = some cmds)
    (hnamed : ∀ cmd ∈ cmds, cmd.1 ≠ 0 → Available config active idx cmd)
    (hanswer : ∀ k i input, (answer k i input).length ≤ maxOutputSize ∧ nul ∉ answer k i input) :
    (execPipe config active idx (fun k i input => .output (answer k i input)) 0 cmds
        CString.empty).map CString.chars = some (pipeOutput config active idx answer 0 cmds []) ↔
      BroadcastsFit config active idx answer 0 cmds [] := by
  have hline : (cstr bytes 0).length ≤ maxCommandSize :=
    (List.takeWhile_sublist _).length_le.trans hbytes
  exact execPipe_from (fun cmd hcmd => (length_text_le hcmds hcmd).trans hline) hnamed hanswer 0 _

/-- Two machines. -/
def twoMachines : Config where
  data := [['1'], ['2']]
  length_le := by decide

/-- `execPipe_iff` on a broadcast that two machines answer with a word each. -/
theorem execPipe_words :
    (execPipe twoMachines (fun i => decide (i < 2)) 0
      (fun _ _ _ => .output ['o', 'k']) 0 [(0, ['p', 'w', 'd']), (-1, ['w', 'c'])]
      CString.empty).map CString.chars =
        some (pipeOutput twoMachines (fun i => decide (i < 2)) 0 (fun _ _ _ => ['o', 'k']) 0
          [(0, ['p', 'w', 'd']), (-1, ['w', 'c'])] []) :=
  (execPipe_iff twoMachines (fun i => decide (i < 2)) 0
    ['n', '*', '.', 'p', 'w', 'd', '|', 'w', 'c'] (fun _ _ _ => ['o', 'k'])
    (by decide) (by decide)
    (fun cmd hcmd => by
      simp only [List.mem_cons, List.not_mem_nil, or_false] at hcmd
      rcases hcmd with rfl | rfl <;> simp [Available, machineOf, twoMachines, Config.count])
    fun _ _ _ => by decide).2 fun j cmd hj hmachine => by
      match j, hj with
      | 0, rfl => decide
      | 1, rfl => cases hmachine

/-- Two machines answer a broadcast with 600 bytes each. -/
theorem not_execPipe_long :
    createCommandPipe (cstr ['n', '*', '.', 'l', 's'] 0) = some [(0, ['l', 's'])] ∧
      ((List.replicate 600 'x').length ≤ maxOutputSize ∧ nul ∉ List.replicate 600 'x') ∧
      (execPipe twoMachines (fun i => decide (i < 2)) 0
        (fun _ _ _ => .output (List.replicate 600 'x')) 0 [(0, ['l', 's'])]
        CString.empty).map CString.chars ≠
          some (pipeOutput twoMachines (fun i => decide (i < 2)) 0
            (fun _ _ _ => List.replicate 600 'x') 0 [(0, ['l', 's'])] []) := by
  have htext : (List.replicate 600 'x').length ≤ maxOutputSize ∧ nul ∉ List.replicate 600 'x' :=
    ⟨by rw [List.length_replicate]; decide,
      fun h => absurd (List.eq_of_mem_replicate h) (by decide)⟩
  have hlong : maxOutputSize + 1 ≤ (commandOutput twoMachines (fun i => decide (i < 2)) 0
      (fun _ _ => List.replicate 600 'x') (0, ['l', 's']) []).length := by
    have hboth : connected twoMachines (fun i => decide (i < 2)) = [0, 1] := by
      decide
    rw [commandOutput, if_pos rfl, hboth, List.length_flatMap]
    simp only [List.length_replicate]
    decide
  refine ⟨by decide, htext, ?_⟩
  rw [execPipe, execCommand_eq (by decide) (fun h => absurd rfl h) (fun _ _ => htext),
    chars_empty, strcpy_eq_none hlong]
  exact fun h => by cases h

end Pipe

end NetProg.Cluster
