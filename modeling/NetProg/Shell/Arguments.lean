import NetProg.Lib.Words
import NetProg.Shell.LineShape

/-!
# The arguments of a command

`parseCmd` reads a command character by character, but what it makes of it depends on the
words only, each with the word in front of it : a word is a redirection sign, or the file
behind one, or an argument (`described`).

An argument is copied to a block for which `calloc(curr_len + 1)` asks, after `curr_len` was
set to 0. `parseCmdIn` is `parseCmd` with blocks of the size that `calloc` really gives for
one byte. It makes of every text what it should, if and only if the arguments that it
copies are shorter than a block (`tokenises_iff`).
-/

namespace NetProg.Shell

open Lib
open Cluster (isSpace)

/-! ## What a command says -/

/-- The words that stand in a position, which depends on the word and the one in front of it. -/
def inPosition (pos : List Char → List Char → Bool) (prev : List Char) (ws : List (List Char)) :
    List (List Char) :=
  (((prev :: ws).zip ws).filter fun r => pos r.1 r.2).map Prod.snd

/-- `>` or `>>`. -/
def IsOutput (word : List Char) : Prop :=
  word = ['>'] ∨ word = ['>', '>']

instance (word : List Char) : Decidable (IsOutput word) :=
  inferInstanceAs (Decidable (_ ∨ _))

/-- Neither a redirection sign nor behind one. -/
def atArgument (prev word : List Char) : Bool :=
  !decide (IsRedirect prev) && !decide (IsRedirect word)

/-- A redirection sign that is not behind one. -/
def atSign (prev word : List Char) : Bool :=
  !decide (IsRedirect prev) && decide (IsRedirect word)

/-- Behind `>` or `>>`. -/
def atOutFile (prev _word : List Char) : Bool :=
  decide (IsOutput prev)

/-- Behind `<`. -/
def atInFile (prev _word : List Char) : Bool :=
  decide (prev = ['<'])

/-- What a text says : the arguments are the words that are no redirection signs and not behind
one, and the last file of each kind counts, and the last sign for output. -/
def described (shape : Command) (cmdInput : List Char) : ParsedCommand :=
  let ws := words isSpace cmdInput
  let signs := inPosition atSign [] ws
  { shape with
    token := cmdInput
    argv := inPosition atArgument [] ws
    inRedirect := decide (['<'] ∈ signs)
    inFile := (inPosition atInFile [] ws).getLast?.getD []
    outRedirect := decide (∃ sign ∈ signs, IsOutput sign)
    outAppend := decide ((signs.filter fun sign => IsOutput sign).getLast? = some ['>', '>'])
    outFile := (inPosition atOutFile [] ws).getLast?.getD [] }

/-- No word is longer than `MAX_ARG_LEN`, and at most `MAX_NUM_ARGS` of them are arguments. -/
def WithinLimits (cmdInput : List Char) : Prop :=
  (∀ w ∈ words isSpace cmdInput, w.length ≤ maxArgLen) ∧
    (inPosition atArgument [] (words isSpace cmdInput)).length ≤ maxNumArgs

instance (cmdInput : List Char) : Decidable (WithinLimits cmdInput) :=
  inferInstanceAs (Decidable (_ ∧ _))

/-- The arguments in front of the first word that is too long, as many as there is room for. -/
def storedArgs (cmdInput : List Char) : List (List Char) :=
  (inPosition atArgument []
    ((words isSpace cmdInput).takeWhile fun w => w.length ≤ maxArgLen)).take maxNumArgs

/-! ## Blocks for the arguments -/

/-- How a call of `parseCmd` ends badly : an assertion ends the process, or a copy runs past the
end of its block. -/
inductive Fault where
  | exits
  | overruns
deriving DecidableEq, Repr

/-- `endArg`, when `calloc` gives blocks of `usable` bytes. The copy of a new argument has one
byte more than the argument. -/
def endArgIn (usable : ℕ) (s : ArgState) : Except Fault ArgState :=
  match endArg s with
  | none => .error .exits
  | some s' =>
    if s'.cmd.argv ≠ s.cmd.argv ∧ usable < s.currArg.length + 1 then .error .overruns else .ok s'

/-- The loop of `parseCmd`, as `scanArgs`. -/
def scanArgsIn (usable : ℕ) : List Char → ArgState → Except Fault ArgState
  | [], s => if s.currArg = [] then .ok s else endArgIn usable s
  | c :: rest, s =>
    if isSpace c = false then
      if s.currArg.length < maxArgLen then
        scanArgsIn usable rest { s with currArg := s.currArg ++ [c] }
      else .error .exits
    else if s.currArg = [] then scanArgsIn usable rest s
    else if rest.head?.any isSpace then scanArgsIn usable rest s
    else (endArgIn usable s).bind fun s => scanArgsIn usable rest s

/-- `parseCmd`, when `calloc` gives blocks of `usable` bytes. -/
def parseCmdIn (usable : ℕ) (shape : Command) (cmdInput : List Char) :
    Except Fault ParsedCommand :=
  (scanArgsIn usable cmdInput ⟨initCmd shape cmdInput, [], []⟩).map ArgState.cmd

/-- A text within the limits becomes the command that it describes, and any other text ends the
process. -/
def Tokenises (usable : ℕ) (shape : Command) (cmdInput : List Char) : Prop :=
  parseCmdIn usable shape cmdInput =
    if WithinLimits cmdInput then .ok (described shape cmdInput) else .error .exits

/-! ## Words in a position -/

section Position

variable {pos : List Char → List Char → Bool} {prev w : List Char} {ws : List (List Char)}

@[simp]
theorem inPosition_nil : inPosition pos prev [] = [] :=
  rfl

theorem inPosition_cons : inPosition pos prev (w :: ws) =
    (if pos prev w then [w] else []) ++ inPosition pos w ws := by
  rw [inPosition, List.zip_cons_cons, List.filter_cons]
  split_ifs <;> rfl

theorem inPosition_singleton : inPosition pos prev [w] = if pos prev w then [w] else [] := by
  rw [inPosition_cons, inPosition_nil, List.append_nil]

theorem mem_of_mem_inPosition (h : w ∈ inPosition pos prev ws) : w ∈ ws := by
  obtain ⟨r, hr, rfl⟩ := List.mem_map.1 h
  exact (List.of_mem_zip (List.mem_of_mem_filter hr)).2

theorem argWords_eq : argWords prev ws = inPosition atArgument prev ws := by
  induction ws generalizing prev with
  | nil => rfl
  | cons w ws ih =>
    rw [argWords, inPosition_cons, ← ih]
    by_cases hprev : IsRedirect prev
    · simp [atArgument, hprev]
    · by_cases hw : IsRedirect w
      · simp [atArgument, hw]
      · simp [atArgument, hprev, hw]

end Position

/-- The words behind those of a word that has begun. -/
theorem wordsFrom_eq {w : List Char} (hw : ∀ c ∈ w, isSpace c = false) (rest : List Char) :
    wordsFrom w rest = words isSpace (w ++ rest) := by
  induction rest generalizing w with
  | nil =>
    rw [wordsFrom, List.append_nil]
    split_ifs with hnil
    · rw [hnil, words_nil]
    · rw [words_of_forall_not hnil hw]
  | cons c rest ih =>
    rw [wordsFrom]
    split_ifs with hc hnil
    · have hwc : ∀ c' ∈ w ++ [c], isSpace c' = false :=
        List.forall_mem_append.2 ⟨hw, List.forall_mem_singleton.2 hc⟩
      rw [ih hwc, List.append_assoc, List.singleton_append]
    · rw [ih (by simp), hnil, List.nil_append, List.nil_append, words_cons (by simpa using hc)]
    · rw [ih (by simp), words_word_append hnil hw (by simpa using hc), List.nil_append]

/-- The arguments that a well formed line has are those that its commands describe. -/
theorem arguments_eq (cmdInput : List Char) :
    arguments cmdInput = inPosition atArgument [] (words isSpace cmdInput) := by
  rw [arguments, wordsFrom_eq (by simp), argWords_eq, List.nil_append]

/-! ## The loop -/

section Loop

variable {usable : ℕ} {s s' : ArgState} {w : List Char}

/-- A word that has been read. -/
def endWord (usable : ℕ) (s : ArgState) (w : List Char) : Except Fault ArgState :=
  if w.length ≤ maxArgLen then endArgIn usable { s with currArg := w } else .error .exits

/-- A word that has begun is the beginning of the first word. -/
theorem exists_wordsFrom (hw : w ≠ []) (rest : List Char) :
    ∃ t ws, wordsFrom w rest = (w ++ t) :: ws := by
  induction rest generalizing w with
  | nil => exact ⟨[], [], by rw [wordsFrom, if_neg hw, List.append_nil]⟩
  | cons c rest ih =>
    rw [wordsFrom]
    split_ifs with hc
    · obtain ⟨t, ws, h⟩ := ih (w := w ++ [c]) (by simp)
      exact ⟨c :: t, ws, by rw [h, List.append_assoc, List.singleton_append]⟩
    · exact ⟨[], _, by rw [List.append_nil]⟩

theorem currArg_of_endArgIn (h : endArgIn usable s = .ok s') : s'.currArg = [] := by
  unfold endArgIn at h
  split at h
  · cases h
  · rename_i s₁ hs₁
    split_ifs at h
    cases h
    exact (endArg_spec hs₁).1

/-- The loop over the characters takes the words one after the other. -/
theorem scanArgsIn_eq (hlen : s.currArg.length ≤ maxArgLen) (rest : List Char) :
    scanArgsIn usable rest s =
      (wordsFrom s.currArg rest).foldlM (endWord usable) { s with currArg := [] } := by
  induction rest generalizing s with
  | nil =>
    rw [scanArgsIn, wordsFrom]
    split_ifs with hcurr
    · rw [← hcurr]
      rfl
    · rw [List.foldlM_cons, endWord, if_pos hlen]
      exact (bind_pure _).symm
  | cons c rest ih =>
    rw [scanArgsIn, wordsFrom]
    split_ifs with hspace hroom hcurr hnext
    · exact ih (by rw [List.length_append, List.length_singleton]; exact hroom)
    · -- the word that is too long has not ended yet
      obtain ⟨t, ws, hwords⟩ := exists_wordsFrom (w := s.currArg ++ [c]) (by simp) rest
      rw [hwords, List.foldlM_cons, endWord, if_neg]
      · rfl
      · simp only [List.length_append, List.length_singleton]
        omega
    · rw [ih hlen, hcurr]
    · -- the word ends at the last of some spaces
      obtain ⟨c', rest, rfl⟩ : ∃ c' rest', rest = c' :: rest' := by
        cases rest with
        | nil => cases hnext
        | cons c' rest' => exact ⟨c', rest', rfl⟩
      have hc' : ¬isSpace c' = false := by simpa using hnext
      rw [ih hlen, wordsFrom, if_neg hc', if_neg hcurr, wordsFrom, if_neg hc', if_pos rfl]
    · rw [List.foldlM_cons, endWord, if_pos hlen]
      change (endArgIn usable s).bind _ = (endArgIn usable s).bind _
      cases hend : endArgIn usable s with
      | error fault => rfl
      | ok s₁ =>
        have hnil := currArg_of_endArgIn hend
        change scanArgsIn usable rest s₁ = _
        rw [ih (by rw [hnil]; exact Nat.zero_le _), hnil]
        rw [← hnil]
        rfl

/-- The command with the words `ws` as well, behind the word `prev`. -/
def addWords (cmd : ParsedCommand) (prev : List Char) (ws : List (List Char)) : ParsedCommand :=
  let signs := inPosition atSign prev ws
  { cmd with
    argv := cmd.argv ++ inPosition atArgument prev ws
    inRedirect := cmd.inRedirect || decide (['<'] ∈ signs)
    inFile := (inPosition atInFile prev ws).getLast?.getD cmd.inFile
    outRedirect := cmd.outRedirect || decide (∃ sign ∈ signs, IsOutput sign)
    outAppend := ((signs.filter fun sign => IsOutput sign).getLast?.map
      fun sign => decide (sign = ['>', '>'])).getD cmd.outAppend
    outFile := (inPosition atOutFile prev ws).getLast?.getD cmd.outFile }

theorem getD_getLast?_append {α : Type*} (l l' : List α) (x : α) :
    (l ++ l').getLast?.getD x = l'.getLast?.getD (l.getLast?.getD x) := by
  rw [List.getLast?_append]
  cases l'.getLast? <;> rfl

theorem argv_addWords (cmd : ParsedCommand) (prev w : List Char) :
    (addWords cmd prev [w]).argv = cmd.argv ++ if atArgument prev w then [w] else [] := by
  rw [addWords, inPosition_singleton]

theorem addWords_cons (cmd : ParsedCommand) (prev w : List Char) (ws : List (List Char)) :
    addWords cmd prev (w :: ws) = addWords (addWords cmd prev [w]) w ws := by
  have hsplit : ∀ pos, inPosition pos prev (w :: ws) =
      inPosition pos prev [w] ++ inPosition pos w ws := fun pos => by
    rw [inPosition_cons, inPosition_singleton]
  simp only [addWords, hsplit, List.append_assoc, List.filter_append, getD_getLast?_append,
    List.mem_append, or_and_right, exists_or, Bool.decide_or, Bool.or_assoc, ← List.getLast?_map,
    List.map_append]

theorem described_eq (shape : Command) (cmdInput : List Char) :
    described shape cmdInput = addWords (initCmd shape cmdInput) [] (words isSpace cmdInput) := by
  simp only [described, addWords, initCmd, List.nil_append, Bool.false_or]
  congr 1
  cases ((inPosition atSign [] (words isSpace cmdInput)).filter fun sign => IsOutput sign).getLast?
    with
  | none => rfl
  | some sign => simp

/-- The end of an argument, when there is room for it. -/
theorem endArg_eq (s : ArgState) : endArg s =
    if atArgument s.prevArg s.currArg = true ∧ maxNumArgs ≤ s.cmd.argv.length then none
    else some ⟨addWords s.cmd s.prevArg [s.currArg], [], s.currArg⟩ := by
  simp only [endArg, addWords, inPosition_singleton]
  by_cases hout : s.prevArg = ['>'] ∨ s.prevArg = ['>', '>']
  · have hin : s.prevArg ≠ ['<'] := by
      rintro heq
      simp [heq] at hout
    have hred : IsRedirect s.prevArg := by
      unfold IsRedirect
      tauto
    simp [atArgument, atSign, atInFile, atOutFile, IsOutput, hout, hin, hred]
  · by_cases hin : s.prevArg = ['<']
    · simp [atArgument, atSign, atInFile, atOutFile, IsOutput, IsRedirect, hin]
    · have hred : ¬IsRedirect s.prevArg := by
        unfold IsRedirect
        tauto
      by_cases hcurr : IsRedirect s.currArg
      · rcases hcurr with hcurr | hcurr | hcurr <;>
          simp [atArgument, atSign, atInFile, atOutFile, IsOutput, IsRedirect, hout, hin, hcurr]
      · have hword := hcurr
        simp only [IsRedirect, not_or] at hword
        by_cases hroom : s.cmd.argv.length < maxNumArgs
        · simp [atArgument, atSign, atInFile, atOutFile, IsOutput, hout, hin, hred, hcurr, hword,
            hroom]
        · simp [atArgument, hout, hin, hred, hcurr, hword, hroom, not_lt.1 hroom]

theorem endArgIn_eq (s : ArgState) : endArgIn usable s =
    if atArgument s.prevArg s.currArg = true then
      if maxNumArgs ≤ s.cmd.argv.length then .error .exits
      else if s.currArg.length < usable then
        .ok ⟨addWords s.cmd s.prevArg [s.currArg], [], s.currArg⟩
      else .error .overruns
    else .ok ⟨addWords s.cmd s.prevArg [s.currArg], [], s.currArg⟩ := by
  have hargv := argv_addWords s.cmd s.prevArg s.currArg
  rw [endArgIn, endArg_eq]
  by_cases harg : atArgument s.prevArg s.currArg = true
  · rw [if_pos harg] at hargv
    by_cases hroom : maxNumArgs ≤ s.cmd.argv.length
    · simp [harg, hroom]
    · by_cases hfit : s.currArg.length < usable
      · simp [harg, hroom, hfit, hargv, Nat.not_lt.2 hfit]
      · simp [harg, hroom, hfit, hargv, Nat.lt_succ_of_le (not_lt.1 hfit)]
  · rw [if_neg harg, List.append_nil] at hargv
    simp [harg, hargv]

/-- What becomes of a list of words : the first argument that does not fit in its block, or the
first word that is beyond the limits, ends the loop. -/
def outcome (usable : ℕ) (s : ArgState) (ws : List (List Char)) : Except Fault ParsedCommand :=
  if ∀ arg ∈ (inPosition atArgument s.prevArg (ws.takeWhile fun w => w.length ≤ maxArgLen)).take
      (maxNumArgs - s.cmd.argv.length), arg.length < usable then
    if (∀ w ∈ ws, w.length ≤ maxArgLen) ∧
        s.cmd.argv.length + (inPosition atArgument s.prevArg ws).length ≤ maxNumArgs then
      .ok (addWords s.cmd s.prevArg ws)
    else .error .exits
  else .error .overruns

variable {ws : List (List Char)}

theorem outcome_nil (hroom : s.cmd.argv.length ≤ maxNumArgs) : outcome usable s [] = .ok s.cmd := by
  rw [outcome, List.takeWhile_nil, inPosition_nil, List.take_nil, if_pos (by simp),
    if_pos (by simpa using hroom)]
  simp [addWords]

theorem outcome_of_long (hlen : ¬w.length ≤ maxArgLen) :
    outcome usable s (w :: ws) = .error .exits := by
  rw [outcome, List.takeWhile_cons_of_neg (by simpa using hlen), inPosition_nil, List.take_nil,
    if_pos (by simp), if_neg fun h => hlen (h.1 w List.mem_cons_self)]

/-- A word that is no argument. -/
theorem outcome_of_not_atArgument (hlen : w.length ≤ maxArgLen)
    (harg : ¬atArgument s.prevArg w = true) :
    outcome usable s (w :: ws) = outcome usable ⟨addWords s.cmd s.prevArg [w], [], w⟩ ws := by
  have hargv := argv_addWords s.cmd s.prevArg w
  rw [if_neg harg, List.append_nil] at hargv
  rw [outcome, outcome, List.takeWhile_cons_of_pos (by simpa using hlen), inPosition_cons,
    inPosition_cons, if_neg harg, List.nil_append, List.nil_append,
    addWords_cons s.cmd s.prevArg w ws]
  simp only [List.forall_mem_cons, hlen, true_and, hargv]

/-- One more argument. -/
theorem outcome_of_atArgument (hlen : w.length ≤ maxArgLen) (harg : atArgument s.prevArg w = true)
    (hroom : s.cmd.argv.length < maxNumArgs) :
    outcome usable s (w :: ws) =
      if w.length < usable then outcome usable ⟨addWords s.cmd s.prevArg [w], [], w⟩ ws
      else .error .overruns := by
  have hlength : (addWords s.cmd s.prevArg [w]).argv.length = s.cmd.argv.length + 1 := by
    rw [argv_addWords, if_pos harg, List.length_append, List.length_singleton]
  obtain ⟨room, hsub⟩ : ∃ room, maxNumArgs - s.cmd.argv.length = room + 1 :=
    ⟨maxNumArgs - s.cmd.argv.length - 1, by omega⟩
  have hless : maxNumArgs - (s.cmd.argv.length + 1) = room := by omega
  rw [outcome, outcome, List.takeWhile_cons_of_pos (by simpa using hlen), inPosition_cons,
    inPosition_cons, if_pos harg, hsub, List.singleton_append, List.take_succ_cons,
    addWords_cons s.cmd s.prevArg w ws]
  simp only [List.forall_mem_cons, hlen, true_and, hlength, hless]
  by_cases hfit : w.length < usable
  · simp only [hfit, true_and, if_true, List.singleton_append, List.length_cons, Nat.add_assoc,
      Nat.add_comm 1]
  · rw [if_neg fun h => hfit h.1, if_neg hfit]

/-- There is no room for one more argument. -/
theorem outcome_of_full (harg : atArgument s.prevArg w = true)
    (hfull : maxNumArgs ≤ s.cmd.argv.length) : outcome usable s (w :: ws) = .error .exits := by
  rw [outcome, Nat.sub_eq_zero_of_le hfull, List.take_zero, if_pos (by simp), if_neg]
  rw [inPosition_cons, if_pos harg, List.length_append, List.length_singleton]
  omega

theorem foldlM_endWord (ws : List (List Char)) (hroom : s.cmd.argv.length ≤ maxNumArgs) :
    (ws.foldlM (endWord usable) s).map ArgState.cmd = outcome usable s ws := by
  induction ws generalizing s with
  | nil =>
    rw [outcome_nil hroom]
    rfl
  | cons w ws ih =>
    rw [List.foldlM_cons, endWord]
    by_cases hlen : w.length ≤ maxArgLen
    · rw [if_pos hlen, endArgIn_eq]
      have hargv := argv_addWords s.cmd s.prevArg w
      by_cases harg : atArgument s.prevArg w = true
      · rw [if_pos harg] at hargv ⊢
        by_cases hfull : maxNumArgs ≤ s.cmd.argv.length
        · rw [if_pos hfull, outcome_of_full harg hfull]
          rfl
        · rw [if_neg hfull, outcome_of_atArgument hlen harg (not_le.1 hfull)]
          split_ifs
          · refine ih ?_
            rw [hargv, List.length_append, List.length_singleton]
            omega
          · rfl
      · rw [if_neg harg, List.append_nil] at hargv
        rw [if_neg harg, outcome_of_not_atArgument hlen harg]
        exact ih (by rwa [hargv])
    · rw [if_neg hlen, outcome_of_long hlen]
      rfl

/-- Blocks with room for the longest argument are never overrun. -/
theorem endArg_eq_toOption (hlen : s.currArg.length ≤ maxArgLen) :
    endArg s = (endArgIn (maxArgLen + 1) s).toOption := by
  unfold endArgIn
  cases endArg s with
  | none => rfl
  | some s' =>
    simp only
    rw [if_neg fun h => absurd h.2 (by omega)]
    rfl

theorem scanArgs_eq_toOption (hlen : s.currArg.length ≤ maxArgLen) (rest : List Char) :
    scanArgs rest s = (scanArgsIn (maxArgLen + 1) rest s).toOption := by
  induction rest generalizing s with
  | nil =>
    rw [scanArgs, scanArgsIn]
    split_ifs
    · rfl
    · exact endArg_eq_toOption hlen
  | cons c rest ih =>
    rw [scanArgs, scanArgsIn]
    split_ifs with hspace hroom hcurr hnext
    · exact ih (by rw [List.length_append, List.length_singleton]; exact hroom)
    · rfl
    · exact ih hlen
    · exact ih hlen
    · rw [endArg_eq_toOption hlen]
      cases hend : endArgIn (maxArgLen + 1) s with
      | error fault => rfl
      | ok s₁ => exact ih (by rw [currArg_of_endArgIn hend]; exact Nat.zero_le _)

end Loop

/-! ## Texts -/

variable {usable : ℕ} {shape : Command} {cmdInput : List Char}

/-- A text is parsed as it should be, unless an argument overruns its block. -/
theorem parseCmdIn_eq (usable : ℕ) (shape : Command) (cmdInput : List Char) :
    parseCmdIn usable shape cmdInput =
      if ∀ arg ∈ storedArgs cmdInput, arg.length < usable then
        if WithinLimits cmdInput then .ok (described shape cmdInput) else .error .exits
      else .error .overruns := by
  rw [parseCmdIn, scanArgsIn_eq (Nat.zero_le _), wordsFrom_eq (by simp), List.nil_append,
    foldlM_endWord _ (Nat.zero_le _), described_eq]
  simp only [outcome, initCmd, List.length_nil, Nat.sub_zero, Nat.zero_add, storedArgs, WithinLimits]
  rfl

/-- The arguments of a text within the limits are all copied. -/
theorem storedArgs_eq (h : WithinLimits cmdInput) :
    storedArgs cmdInput = (described shape cmdInput).argv := by
  have hall : ∀ w ∈ words isSpace cmdInput, decide (w.length ≤ maxArgLen) = true :=
    fun w hw => decide_eq_true (h.1 w hw)
  rw [storedArgs, List.takeWhile_eq_self_iff.2 hall, List.take_of_length_le h.2, described]

/-- `parseCmd`, whose arguments fit in their copies. -/
theorem parseCmd_eq (shape : Command) (cmdInput : List Char) : parseCmd shape cmdInput =
    if WithinLimits cmdInput then some (described shape cmdInput) else none := by
  have hfits : ∀ arg ∈ storedArgs cmdInput, arg.length < maxArgLen + 1 := fun arg harg => by
    have hmem := mem_of_mem_inPosition (List.mem_of_mem_take harg)
    have hshort := List.mem_takeWhile_imp hmem
    exact Nat.lt_succ_of_le (of_decide_eq_true hshort)
  have hparse := parseCmdIn_eq (maxArgLen + 1) shape cmdInput
  rw [if_pos hfits, parseCmdIn] at hparse
  rw [parseCmd, scanArgs_eq_toOption (Nat.zero_le _)]
  cases hscan : scanArgsIn (maxArgLen + 1) cmdInput ⟨initCmd shape cmdInput, [], []⟩ with
  | error fault =>
    rw [hscan] at hparse
    split_ifs at hparse ⊢
    · cases hparse
    · rfl
  | ok s =>
    rw [hscan] at hparse
    split_ifs at hparse ⊢
    · exact congrArg some (Except.ok.inj hparse)
    · cases hparse

theorem not_tokenises_of_mem {arg : List Char} (harg : arg ∈ storedArgs cmdInput)
    (hlen : usable ≤ arg.length) : ¬Tokenises usable shape cmdInput := by
  intro h
  rw [Tokenises, parseCmdIn_eq, if_neg fun hfit => absurd (hfit arg harg) (by omega)] at h
  split_ifs at h
  cases h

/-- `parseCmd` makes of a text what it should if and only if every argument that it copies fits in
a block, with the byte that ends it. -/
theorem tokenises_iff : Tokenises usable shape cmdInput ↔
    ∀ arg ∈ storedArgs cmdInput, arg.length < usable := by
  constructor
  · intro h arg harg
    by_contra hlen
    exact not_tokenises_of_mem harg (not_lt.1 hlen) h
  · intro h
    rw [Tokenises, parseCmdIn_eq, if_pos h]

/-- A command with an argument of 24 letters. -/
def longArgument : List Char :=
  "echo abcdefghijklmnopqrstuvwx".toList

/-- It is within the limits, but its copy runs past the one byte that is asked for, and past a
block of 24 bytes as well. -/
theorem not_tokenises_longArgument : WithinLimits longArgument ∧
    ¬Tokenises 1 (PipeCount.single.command 0) longArgument ∧
    ¬Tokenises 24 (PipeCount.single.command 0) longArgument := by
  have hmem : "abcdefghijklmnopqrstuvwx".toList ∈ storedArgs longArgument := by decide
  exact ⟨by decide, not_tokenises_of_mem hmem (by decide), not_tokenises_of_mem hmem (by decide)⟩

end NetProg.Shell
