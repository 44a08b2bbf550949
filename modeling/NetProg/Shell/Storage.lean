import NetProg.Shell.Arguments

/-!
# Where `parseCmd` writes

`storeArgs` is the loop of `parseCmd` with the variables `curr_len` and `num_args` of its own,
and with a log of its writes : the cells there are, and the cells that are written. Without the
log it is `scanArgs` (`erase_storeArgs`). Every write to the four arrays of characters and to
`argv` fits. The block of an argument has `curr_len + 1` bytes, and `curr_len` is 0 by then :
the writes fit if and only if there is no argument at all (`writes_fit_iff`).
-/

namespace NetProg.Shell

open Lib
open Cluster (isSpace)

/-! ## The writes -/

/-- Where `parseCmd` writes. -/
inductive Dest where
  | currArg
  | prevArg
  | inFile
  | outFile
  /-- The pointers of the arguments. -/
  | argv
  /-- The block for argument `k`. -/
  | block (k : ℕ)
deriving DecidableEq, Repr

def Dest.isBlock : Dest → Bool
  | .block _ => true
  | _ => false

/-- A write to a destination of `size` cells, which ends in front of cell `upto`. -/
structure Write where
  dest : Dest
  size : ℕ
  upto : ℕ
deriving DecidableEq, Repr

/-- The write stays inside its destination. -/
def Write.Fits (w : Write) : Prop :=
  w.upto ≤ w.size

instance (w : Write) : Decidable w.Fits :=
  inferInstanceAs (Decidable (_ ≤ _))

/-- Character `k` of an array of `MAX_ARG_LEN + 1` characters. -/
def putChar (dest : Dest) (k : ℕ) : Write :=
  ⟨dest, maxArgLen + 1, k + 1⟩

/-- `strcpy` to such an array. -/
def strcpy (dest : Dest) (text : List Char) : Write :=
  putChar dest text.length

/-- Pointer `k` of the arguments. -/
def putArg (k : ℕ) : Write :=
  ⟨.argv, maxNumArgs + 1, k + 1⟩

/-- The variables of `parseCmd` and its writes. What is in `curr_arg` behind the first
`curr_len` characters is never read. -/
structure StoreState where
  cmd : ParsedCommand
  currArg : List Char
  currLen : ℕ
  prevArg : List Char
  numArgs : ℕ
  writes : List Write

/-- An argument has ended. -/
def storeArg (s : StoreState) : Option StoreState :=
  let arg := s.currArg.take s.currLen
  let s := { s with
    writes := s.writes ++ [putChar .currArg s.currLen]
    currLen := 0 }
  let next (cmd : ParsedCommand) (writes : List Write) : StoreState :=
    { s with cmd := cmd, prevArg := arg, writes := s.writes ++ writes }
  if s.prevArg = ['>'] ∨ s.prevArg = ['>', '>'] then
    some (next { s.cmd with outFile := arg } [strcpy .outFile arg, strcpy .prevArg arg])
  else if s.prevArg = ['<'] then
    some (next { s.cmd with inFile := arg } [strcpy .inFile arg, strcpy .prevArg arg])
  else if arg = ['>'] then
    some (next { s.cmd with outRedirect := true, outAppend := false } [strcpy .prevArg arg])
  else if arg = ['>', '>'] then
    some (next { s.cmd with outRedirect := true, outAppend := true } [strcpy .prevArg arg])
  else if arg = ['<'] then
    some (next { s.cmd with inRedirect := true } [strcpy .prevArg arg])
  else if s.numArgs < maxNumArgs then
    -- the block has `curr_len + 1` bytes
    let s := next { s.cmd with argv := s.cmd.argv ++ [arg] } [strcpy .prevArg arg,
      putArg s.numArgs, ⟨.block s.numArgs, s.currLen + 1, arg.length + 1⟩]
    some { s with numArgs := s.numArgs + 1 }
  else none

/-- The loop over the characters. -/
def storeArgs : List Char → StoreState → Option StoreState
  | [], s => if s.currLen = 0 then some s else storeArg s
  | c :: rest, s =>
    if isSpace c = false then
      if s.currLen < maxArgLen then
        storeArgs rest { s with
          currArg := s.currArg.take s.currLen ++ [c]
          currLen := s.currLen + 1
          writes := s.writes ++ [putChar .currArg s.currLen] }
      else none
    else if s.currLen = 0 then storeArgs rest s
    else if rest.head?.any isSpace then storeArgs rest s
    else (storeArg s).bind fun s => storeArgs rest s

/-- The state in front of the loop. -/
def storeInit (shape : Command) (cmdInput : List Char) : StoreState :=
  ⟨initCmd shape cmdInput, [], 0, [], 0, [strcpy .currArg [], strcpy .prevArg []]⟩

/-- `parseCmd`, with its writes. The last one is the NULL behind the arguments. -/
def parseCmdStored (shape : Command) (cmdInput : List Char) :
    Option (ParsedCommand × List Write) :=
  (storeArgs cmdInput (storeInit shape cmdInput)).map fun s =>
    (s.cmd, s.writes ++ [putArg s.numArgs])

/-! ## Without the log -/

/-- The writes to the blocks of the arguments. -/
def blockWrites (argv : List (List Char)) : List Write :=
  argv.zipIdx.map fun r => ⟨.block r.2, 1, r.1.length + 1⟩

/-- The variables agree with the command, every block has one byte, and every other write
fits. -/
structure Stored (s : StoreState) : Prop where
  currLen_le_length : s.currLen ≤ s.currArg.length
  currLen_le : s.currLen ≤ maxArgLen
  numArgs_eq : s.numArgs = s.cmd.argv.length
  numArgs_le : s.numArgs ≤ maxNumArgs
  blocks : s.writes.filter (fun w => w.dest.isBlock) = blockWrites s.cmd.argv
  fits : ∀ w ∈ s.writes, w.dest.isBlock = false → w.Fits

/-- The state of `scanArgs`. -/
def StoreState.erase (s : StoreState) : ArgState :=
  ⟨s.cmd, s.currArg.take s.currLen, s.prevArg⟩

section

variable {s s' : StoreState}

theorem Stored.length_take (h : Stored s) : (s.currArg.take s.currLen).length = s.currLen := by
  rw [List.length_take, min_eq_left h.currLen_le_length]

theorem Stored.take_eq_nil_iff (h : Stored s) : s.currArg.take s.currLen = [] ↔ s.currLen = 0 := by
  rw [← List.length_eq_zero_iff, h.length_take]

theorem erase_storeArg (h : Stored s) : (storeArg s).map StoreState.erase = endArg s.erase := by
  unfold storeArg endArg StoreState.erase
  simp only [h.numArgs_eq]
  split_ifs <;> rfl

theorem stored_init (shape : Command) (cmdInput : List Char) :
    Stored (storeInit shape cmdInput) where
  currLen_le_length := le_rfl
  currLen_le := Nat.zero_le _
  numArgs_eq := rfl
  numArgs_le := Nat.zero_le _
  blocks := rfl
  fits := by
    simp only [storeInit, List.forall_mem_cons]
    exact ⟨fun _ => by decide, fun _ => by decide, fun w hw => by cases hw⟩

theorem blockWrites_append (argv : List (List Char)) (arg : List Char) :
    blockWrites (argv ++ [arg]) = blockWrites argv ++ [⟨.block argv.length, 1, arg.length + 1⟩] := by
  simp [blockWrites, List.zipIdx_append]

/-- A text that fits. -/
theorem fits_strcpy {dest : Dest} {text : List Char} (h : text.length ≤ maxArgLen) :
    (strcpy dest text).Fits :=
  Nat.succ_le_succ h

/-- What the end of an argument writes : copies to the arrays, or also a new argument. -/
theorem storeArg_cases (hs : storeArg s = some s') :
    (∃ cmd ws, s' = ⟨cmd, s.currArg, 0, s.currArg.take s.currLen, s.numArgs,
        s.writes ++ [putChar .currArg s.currLen] ++ ws⟩ ∧
      cmd.argv = s.cmd.argv ∧ ∀ w ∈ ws, ∃ dest : Dest, dest.isBlock = false ∧
        w = strcpy dest (s.currArg.take s.currLen)) ∨
    s.numArgs < maxNumArgs ∧
      s' = ⟨{ s.cmd with argv := s.cmd.argv ++ [s.currArg.take s.currLen] }, s.currArg, 0,
        s.currArg.take s.currLen, s.numArgs + 1, s.writes ++ [putChar .currArg s.currLen] ++
          [strcpy .prevArg (s.currArg.take s.currLen), putArg s.numArgs,
            ⟨.block s.numArgs, 1, (s.currArg.take s.currLen).length + 1⟩]⟩ := by
  have hone : ∀ w ∈ [strcpy .prevArg (s.currArg.take s.currLen)], ∃ dest : Dest,
      dest.isBlock = false ∧ w = strcpy dest (s.currArg.take s.currLen) :=
    List.forall_mem_singleton.2 ⟨.prevArg, rfl, rfl⟩
  unfold storeArg at hs
  simp only at hs
  split_ifs at hs with hout hin hgt happ hlt hroom <;> cases hs
  · exact Or.inl ⟨_, _, rfl, rfl, List.forall_mem_cons.2 ⟨⟨.outFile, rfl, rfl⟩, hone⟩⟩
  · exact Or.inl ⟨_, _, rfl, rfl, List.forall_mem_cons.2 ⟨⟨.inFile, rfl, rfl⟩, hone⟩⟩
  · exact Or.inl ⟨_, _, rfl, rfl, hone⟩
  · exact Or.inl ⟨_, _, rfl, rfl, hone⟩
  · exact Or.inl ⟨_, _, rfl, rfl, hone⟩
  · exact Or.inr ⟨hroom, rfl⟩

theorem Stored.storeArg (h : Stored s) (hs : storeArg s = some s') :
    Stored s' ∧ s'.currLen = 0 := by
  have hlen := h.length_take
  have hcopy : ∀ dest : Dest, (strcpy dest (s.currArg.take s.currLen)).Fits := fun dest =>
    fits_strcpy (hlen.trans_le h.currLen_le)
  have hend : (putChar .currArg s.currLen).Fits := Nat.succ_le_succ h.currLen_le
  rcases storeArg_cases hs with ⟨cmd, ws, rfl, hargv, hws⟩ | ⟨hroom, rfl⟩
  · have hnone : ∀ w ∈ ws, w.dest.isBlock = false ∧ w.Fits := fun w hw => by
      obtain ⟨dest, hdest, rfl⟩ := hws w hw
      exact ⟨hdest, hcopy dest⟩
    refine ⟨⟨Nat.zero_le _, Nat.zero_le _, hargv ▸ h.numArgs_eq, h.numArgs_le, ?_, ?_⟩, rfl⟩
    · have hfilter : ws.filter (fun w => w.dest.isBlock) = [] :=
        List.filter_eq_nil_iff.2 fun w hw => by simp [(hnone w hw).1]
      simp only [List.filter_append, h.blocks, hfilter, hargv]
      simp [putChar, Dest.isBlock]
    · refine List.forall_mem_append.2 ⟨List.forall_mem_append.2 ⟨h.fits, ?_⟩, ?_⟩
      · exact List.forall_mem_singleton.2 fun _ => hend
      · exact fun w hw _ => (hnone w hw).2
  · refine ⟨⟨Nat.zero_le _, Nat.zero_le _, ?_, hroom, ?_, ?_⟩, rfl⟩
    · rw [List.length_append, h.numArgs_eq]
      rfl
    · rw [blockWrites_append, ← h.numArgs_eq, ← h.blocks]
      simp [putChar, strcpy, putArg, Dest.isBlock]
    · refine List.forall_mem_append.2 ⟨List.forall_mem_append.2 ⟨h.fits, ?_⟩, ?_⟩
      · exact List.forall_mem_singleton.2 fun _ => hend
      · simp only [List.forall_mem_cons]
        exact ⟨fun _ => hcopy _, fun _ => Nat.succ_le_succ hroom.le, fun hb => (by cases hb),
          fun w hw => (by cases hw)⟩

/-- One more character of an argument. -/
theorem Stored.putChar (h : Stored s) (hroom : s.currLen < maxArgLen) (c : Char) :
    Stored { s with
      currArg := s.currArg.take s.currLen ++ [c]
      currLen := s.currLen + 1
      writes := s.writes ++ [putChar .currArg s.currLen] } where
  currLen_le_length := by
    simp [h.length_take]
  currLen_le := hroom
  numArgs_eq := h.numArgs_eq
  numArgs_le := h.numArgs_le
  blocks := by
    rw [List.filter_append, h.blocks]
    simp [NetProg.Shell.putChar, Dest.isBlock]
  fits := by
    refine List.forall_mem_append.2 ⟨h.fits, List.forall_mem_singleton.2 fun _ => ?_⟩
    exact Nat.succ_le_succ hroom.le

theorem Stored.storeArgs (h : Stored s) {text : List Char} (hs : storeArgs text s = some s') :
    Stored s' := by
  induction text generalizing s with
  | nil =>
    rw [NetProg.Shell.storeArgs] at hs
    split_ifs at hs
    · cases hs
      exact h
    · exact (h.storeArg hs).1
  | cons c rest ih =>
    rw [NetProg.Shell.storeArgs] at hs
    split_ifs at hs with hspace hroom hcurr hnext
    · exact ih (h.putChar hroom c) hs
    · exact ih h hs
    · exact ih h hs
    · obtain ⟨s₁, hs₁, hs⟩ := Option.bind_eq_some_iff.1 hs
      exact ih (h.storeArg hs₁).1 hs

/-- The log changes nothing. -/
theorem erase_storeArgs (h : Stored s) (text : List Char) :
    (storeArgs text s).map StoreState.erase = scanArgs text s.erase := by
  induction text generalizing s with
  | nil =>
    have hnil : s.erase.currArg = [] ↔ s.currLen = 0 := h.take_eq_nil_iff
    rw [storeArgs, scanArgs]
    simp only [hnil]
    split_ifs
    · rfl
    · exact erase_storeArg h
  | cons c rest ih =>
    have hnil : s.erase.currArg = [] ↔ s.currLen = 0 := h.take_eq_nil_iff
    have hlen : s.erase.currArg.length = s.currLen := h.length_take
    rw [storeArgs, scanArgs]
    simp only [hnil, hlen]
    split_ifs with hspace hroom hcurr hnext
    · rw [ih (h.putChar hroom c)]
      have htake : (s.currArg.take s.currLen ++ [c]).take (s.currLen + 1) =
          s.currArg.take s.currLen ++ [c] :=
        List.take_of_length_le (by simp [h.length_take])
      simp only [StoreState.erase, htake]
    · rfl
    · exact ih h
    · exact ih h
    · rw [← erase_storeArg h]
      cases hstore : storeArg s with
      | none => rfl
      | some s₁ => exact ih (h.storeArg hstore).1

end

/-! ## The writes of a command -/

/-- `parseCmdStored` is `parseCmd`. -/
theorem map_parseCmdStored (shape : Command) (cmdInput : List Char) :
    (parseCmdStored shape cmdInput).map Prod.fst = parseCmd shape cmdInput := by
  have herase := erase_storeArgs (stored_init shape cmdInput) cmdInput
  rw [parseCmd, show (⟨initCmd shape cmdInput, [], []⟩ : ArgState) =
    (storeInit shape cmdInput).erase from rfl, ← herase, parseCmdStored]
  cases storeArgs cmdInput (storeInit shape cmdInput) <;> rfl

/-- The blocks of the arguments are the only destinations that are too small. -/
theorem parseCmdStored_spec {shape : Command} {cmdInput : List Char} {cmd : ParsedCommand}
    {ws : List Write} (h : parseCmdStored shape cmdInput = some (cmd, ws)) :
    ws.filter (fun w => w.dest.isBlock) = blockWrites cmd.argv ∧
      ∀ w ∈ ws, w.dest.isBlock = false → w.Fits := by
  obtain ⟨s, hs, heq⟩ := Option.map_eq_some_iff.1 h
  obtain ⟨rfl, rfl⟩ := Prod.mk.inj heq
  have hst := (stored_init shape cmdInput).storeArgs hs
  constructor
  · rw [List.filter_append, hst.blocks]
    simp [putArg, Dest.isBlock]
  · refine List.forall_mem_append.2 ⟨hst.fits, List.forall_mem_singleton.2 fun _ => ?_⟩
    exact Nat.succ_le_succ hst.numArgs_le

/-- Words are not empty, and an argument does not fit in one byte. -/
theorem fits_blockWrites_iff {argv : List (List Char)} (hne : ∀ arg ∈ argv, arg ≠ []) :
    (∀ w ∈ blockWrites argv, w.Fits) ↔ argv = [] := by
  constructor
  · intro h
    cases argv with
    | nil => rfl
    | cons arg argv =>
      have hfit : arg.length + 1 ≤ 1 := h ⟨.block 0, 1, arg.length + 1⟩ (by simp [blockWrites])
      have hpos := List.length_pos_iff.2 (hne arg List.mem_cons_self)
      omega
  · rintro rfl w hw
    cases hw

/-- Of a command that `parseCmd` takes, every write fits if and only if no word is an argument.
The arrays of characters and `argv` are always large enough. -/
theorem writes_fit_iff {shape : Command} {cmdInput : List Char} {cmd : ParsedCommand}
    (h : parseCmd shape cmdInput = some cmd) :
    ∃ ws, parseCmdStored shape cmdInput = some (cmd, ws) ∧
      (∀ w ∈ ws, w.dest.isBlock = false → w.Fits) ∧
      ((∀ w ∈ ws, w.Fits) ↔ inPosition atArgument [] (words isSpace cmdInput) = []) := by
  rw [← map_parseCmdStored] at h
  obtain ⟨⟨cmd, ws⟩, hstored, rfl⟩ := Option.map_eq_some_iff.1 h
  obtain ⟨hblocks, hfits⟩ := parseCmdStored_spec hstored
  refine ⟨ws, hstored, hfits, ?_⟩
  rw [map_parseCmdStored, parseCmd_eq] at h
  split_ifs at h with hlimits
  obtain rfl : described shape cmdInput = cmd := Option.some.inj h
  have hne : ∀ arg ∈ (described shape cmdInput).argv, arg ≠ [] := fun arg harg =>
    ne_nil_of_mem_words (mem_of_mem_inPosition harg)
  change _ ↔ (described shape cmdInput).argv = []
  rw [← fits_blockWrites_iff hne, ← hblocks]
  constructor
  · exact fun hall w hw => hall w (List.mem_of_mem_filter hw)
  · intro hall w hw
    cases hb : w.dest.isBlock with
    | false => exact hfits w hw hb
    | true => exact hall w (List.mem_filter.2 ⟨hw, hb⟩)

/-- A file behind a redirection sign is no argument. -/
theorem writes_fit_outFile : ∃ cmd ws,
    parseCmdStored (PipeCount.single.command 0) "> out".toList = some (cmd, ws) ∧
      ∀ w ∈ ws, w.Fits := by
  obtain ⟨cmd, hcmd⟩ := Option.isSome_iff_exists.1
    (show (parseCmd (PipeCount.single.command 0) "> out".toList).isSome by decide)
  obtain ⟨ws, hws, -, hfit⟩ := writes_fit_iff hcmd
  exact ⟨cmd, ws, hws, hfit.2 (by decide)⟩

/-- The three bytes of `ls` go to a block of one byte. -/
theorem not_writes_fit_ls : ∃ r, parseCmdStored (PipeCount.single.command 0) "ls".toList = some r ∧
    ⟨.block 0, 1, 3⟩ ∈ r.2 ∧ ¬∀ w ∈ r.2, w.Fits := by
  obtain ⟨r, hr, hmem⟩ := Option.map_eq_some_iff.1
    (show (parseCmdStored (PipeCount.single.command 0) "ls".toList).map
      (fun r => decide (⟨.block 0, 1, 3⟩ ∈ r.2)) = some true by decide)
  have hblock := of_decide_eq_true hmem
  exact ⟨r, hr, hblock, fun h => absurd (h _ hblock) (by decide)⟩

end NetProg.Shell
