import Mathlib.Data.List.TakeWhile
import NetProg.Cluster.Execute

/-!
# A command and its input in one message

The server sends a machine the text of a command and the output of the command before it, each
with the byte that ends it. The client takes what one `read` returns, puts a zero byte behind
it, and finds the command behind the spaces at the beginning and the input behind the byte that
ends the command.

The array of the server and the array of the client have the same size, so the zero byte of the
client fits only behind a shorter message. It does (`framing`) : the first command has no input,
and in front of a later one the line has another command and a bar.
-/

namespace NetProg.Cluster

open Lib (CString takeWhile_of_notMem)
open Lib.CString

/-- The size of `input` in the server and of `buff` in the client. -/
def messageSize : ℕ :=
  maxCommandSize + 1 + maxOutputSize + 1

/-- What the client has in `buff` after a read. `none` when the zero byte is outside the
array. -/
def receive (read : List Char) : Option (List Char) :=
  if read.length < messageSize then some (read ++ [nul]) else none

/-- What the client does with a message : it changes its directory, or it runs a command, with
an input. -/
inductive Execution where
  | chdir (path : List Char)
  | run (command input : List Char)
deriving DecidableEq, Repr

/-- It is a command to change the directory. -/
def IsCd (cmd : List Char) : Prop :=
  cmd.take 3 = ['c', 'd', ' ']

instance (cmd : List Char) : Decidable (IsCd cmd) :=
  inferInstanceAs (Decidable (_ = _))

/-- `executeCmd`. -/
def executeCmd (buff : List Char) : Execution :=
  let cmd := buff.dropWhile fun c => c == ' '
  if IsCd cmd then .chdir (cstr cmd 3)
  else .run (cstr cmd 0) (cstr cmd ((cstr cmd 0).length + 1))

/-! ## The length of a stage -/

/-- In front of a later token there are another one and a bar. -/
theorem length_later_token {s tok tok' : List Char} {toks : List (List Char)}
    (h : tokens s = tok :: toks) (hmem : tok' ∈ toks) : tok'.length + 2 ≤ s.length := by
  rw [tokens_eq] at h
  cases hfirst : firstToken s with
  | none =>
    rw [hfirst] at h
    cases h
  | some r =>
    obtain ⟨tok₁, rest⟩ := r
    rw [hfirst] at h
    obtain ⟨rfl, rfl⟩ := List.cons.inj h
    have hle := (List.dropWhile_sublist (l := s) fun c => c == '|').length_le
    cases hdrop : s.dropWhile fun c => c == '|' with
    | nil =>
      rw [firstToken_eq_none hdrop] at hfirst
      cases hfirst
    | cons c t =>
      have hc : (c != '|') = true := by
        have hhead := List.head_dropWhile_not (fun c => c == '|') (l := s) (by rw [hdrop]; simp)
        simpa [hdrop] using hhead
      rw [firstToken_eq_some hdrop (List.cons_ne_nil _ _)] at hfirst
      obtain ⟨-, rfl⟩ := Prod.mk.inj (Option.some.inj hfirst)
      have htok := (sublist_of_mem_tokens hmem).length_le
      rw [List.dropWhile_cons_of_pos (p := fun c => c != '|') hc] at htok hmem
      have hsub := (List.dropWhile_sublist (l := t) fun c => c != '|').length_le
      -- the bar is the first character that is dropped
      cases hbar : t.dropWhile fun c => c != '|' with
      | nil =>
        rw [hbar] at hmem
        cases hmem
      | cons d u =>
        rw [hbar, List.length_cons] at hsub
        rw [hbar, List.tail_cons] at htok
        rw [hdrop, List.length_cons] at hle
        omega

/-- A command that is not the first one leaves two characters of the line to others. -/
theorem length_later_text {line : List Char} {cmds : List Command} {k : ℕ} {cmd : Command}
    (hcmds : createCommandPipe line = some cmds) (hcmd : cmds[k + 1]? = some cmd) :
    cmd.2.length + 2 ≤ line.length := by
  unfold createCommandPipe at hcmds
  cases htoks : tokens line with
  | nil =>
    rw [htoks] at hcmds
    cases hcmds
    cases hcmd
  | cons tok toks =>
    rw [htoks, List.mapM_cons] at hcmds
    obtain ⟨first, -, hcmds⟩ := Option.bind_eq_some_iff.1 hcmds
    obtain ⟨later, hlater, hcmds⟩ := Option.bind_eq_some_iff.1 hcmds
    obtain rfl := Option.some.inj hcmds
    have hmem : cmd ∈ later := List.mem_of_getElem? hcmd
    obtain ⟨tok', htok', hparse⟩ := exists_token_of_mem hlater hmem
    obtain ⟨p, -, rfl⟩ := Option.map_eq_some_iff.1 hparse
    have hle := (p.text_sublist tok').length_le
    have hlen := length_later_token htoks htok'
    simp only
    omega

/-! ## The round trip -/

/-- Whether it is a command to change the directory does not depend on what is behind it. -/
theorem isCd_append {cmd t : List Char} : IsCd (cmd ++ nul :: t) → IsCd cmd := by
  unfold IsCd
  intro h
  by_cases hlen : 3 ≤ cmd.length
  · rwa [List.take_append_of_le_length hlen] at h
  · have hmem : nul ∈ (cmd ++ nul :: t).take 3 := by
      refine List.mem_iff_getElem.2 ⟨cmd.length, by simp; omega, ?_⟩
      simp
    rw [h] at hmem
    exact absurd hmem (by decide)

theorem dropWhile_message {cmd t : List Char} :
    (cmd ++ nul :: t).dropWhile (fun c => c == ' ') =
      (cmd.dropWhile fun c => c == ' ') ++ nul :: t := by
  have ht : (nul :: t).dropWhile (fun c => c == ' ') = nul :: t :=
    List.dropWhile_cons_of_neg (by decide)
  rw [List.dropWhile_append]
  split_ifs with hempty
  · rw [ht, List.isEmpty_iff.1 hempty, List.nil_append]
  · rfl

/-- The client finds the command and its input. -/
theorem executeCmd_message {cmd input : List Char} (hcmd : nul ∉ cmd) (hinput : nul ∉ input)
    (hcd : ¬IsCd (cmd.dropWhile fun c => c == ' ')) :
    executeCmd (message cmd input ++ [nul]) = .run (cmd.dropWhile fun c => c == ' ') input := by
  have hshort : nul ∉ cmd.dropWhile fun c => c == ' ' :=
    fun hmem => hcmd ((List.dropWhile_sublist _).subset hmem)
  have hbuff : message cmd input ++ [nul] = cmd ++ nul :: (input ++ nul :: [nul]) := by
    simp [message]
  rw [hbuff, executeCmd, dropWhile_message]
  generalize (cmd.dropWhile fun c => c == ' ') = cmd' at hcd hshort
  have hfirst : cstr (cmd' ++ nul :: (input ++ nul :: [nul])) 0 = cmd' := by
    rw [cstr, List.drop_zero, takeWhile_of_notMem hshort]
  have hsecond : cstr (cmd' ++ nul :: (input ++ nul :: [nul])) (cmd'.length + 1) = input := by
    rw [cstr, List.drop_append, List.drop_eq_nil_of_le (Nat.le_succ _), Nat.add_sub_cancel_left,
      List.nil_append, List.drop_one, List.tail_cons, takeWhile_of_notMem hinput]
  simp only [if_neg (mt isCd_append hcd), hfirst, hsecond]

/-- Of every stage of a command line, and every output in front of it, the message is inside the
array of the server and, with a zero byte behind it, inside the array of the client, which finds
the command, without the spaces in front of it, and the output. -/
theorem framing (bytes : List Char) (hbytes : bytes.length ≤ maxCommandSize)
    {cmds : List Command} (hcmds : createCommandPipe (cstr bytes 0) = some cmds) {k : ℕ}
    {cmd : Command} (hcmd : cmds[k]? = some cmd)
    (hcd : ¬IsCd (cmd.2.dropWhile fun c => c == ' ')) (output : Output)
    (hnul : nul ∉ output.chars) (hfirst : k = 0 → output.chars = []) :
    ∃ msg buff, fillInput cmd.2 output = some msg ∧ msg.length ≤ messageSize ∧
      receive msg = some buff ∧
      executeCmd buff = .run (cmd.2.dropWhile fun c => c == ' ') output.chars := by
  have hmem : cmd ∈ cmds := List.mem_of_getElem? hcmd
  have hline : (cstr bytes 0).length ≤ maxCommandSize :=
    (List.takeWhile_sublist _).length_le.trans hbytes
  have hlen : (message cmd.2 output.chars).length = cmd.2.length + output.chars.length + 2 := by
    simp [message]
    omega
  have houtput := output.length_lt
  have hfits : (message cmd.2 output.chars).length < messageSize := by
    rw [hlen]
    unfold messageSize
    cases k with
    | zero =>
      have htext := (length_text_le hcmds hmem).trans hline
      have hroom : 0 < maxOutputSize := by decide
      rw [hfirst rfl, List.length_nil]
      omega
    | succ k =>
      have htext := length_later_text hcmds hcmd
      omega
  have htext : nul ∉ cmd.2 := fun h => by
    have hne := List.mem_takeWhile_imp ((text_sublist hcmds hmem).subset h)
    simp at hne
  refine ⟨_, _, fillInput_eq_some ((length_text_le hcmds hmem).trans hline) output, hfits.le,
    if_pos hfits, executeCmd_message htext hnul hcd⟩

/-- The second of two commands, with the output of the first. -/
theorem framing_words : ∃ msg buff, fillInput [' ', 'w', 'c'] ⟨['o', 'k'], by decide⟩ = some msg ∧
    msg.length ≤ messageSize ∧ receive msg = some buff ∧
      executeCmd buff = .run ['w', 'c'] ['o', 'k'] := by
  have hcmds : createCommandPipe (cstr "ls | wc".toList 0) =
      some [(-1, ['l', 's', ' ']), (-1, [' ', 'w', 'c'])] := by decide
  exact framing "ls | wc".toList (by decide) hcmds (k := 1) rfl (by decide)
    ⟨['o', 'k'], by decide⟩ (by decide) (fun h => by cases h)

end NetProg.Cluster
