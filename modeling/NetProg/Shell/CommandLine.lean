import NetProg.Lib.SList
import NetProg.Cluster.Parse
import NetProg.Shell.HashMap
import NetProg.Shell.Pipeline

/-!
# Command lines of the shell

`createCmdPipe` cuts a line at `|` with `strsep` and counts the empty fields to know whether
one, two or three bars are in front of a command. Behind `||` and `|||` it cuts once more at
commas. `parseCmd` splits a command into its arguments and redirections.

A line that begins with `sc` is about a shortcut : `sc -i` calls `createCmdPipe` again for
the rest of the line, and puts the pipeline into the map. The line is the memory from where it
begins, as `sc -i` can read behind its end. The index is read into an `int`, which wraps around,
and the answer of the user into ten characters.

`none` is the end of the process, by `errExit` or at a NULL pointer, and where it reads or writes
outside its memory : in front of the buckets of the map, or behind the characters for the answer.
Memory is never short, and an argument is taken to fit into its copy, for which one byte is
asked.
-/

namespace NetProg.Shell

open Lib
open Cluster (nul isSpace)

/-! ## Commands -/

/-- `MAX_NUM_ARGS`. -/
def maxNumArgs : ℕ :=
  20

/-- `MAX_ARG_LEN`. -/
def maxArgLen : ℕ :=
  30

/-- `command`. -/
structure ParsedCommand extends Command where
  token : List Char
  argv : List (List Char)
  inRedirect : Bool
  inFile : List Char
  outRedirect : Bool
  outAppend : Bool
  outFile : List Char
deriving DecidableEq, Repr

def ParsedCommand.argc (cmd : ParsedCommand) : ℕ :=
  cmd.argv.length

/-- `initCmd`, with the fields that `parseCmd` sets first. -/
def initCmd (shape : Command) (cmdInput : List Char) : ParsedCommand :=
  ⟨shape, cmdInput, [], false, [], false, false, []⟩

/-- The variables of `parseCmd`. -/
structure ArgState where
  cmd : ParsedCommand
  currArg : List Char
  prevArg : List Char

/-- An argument has ended. -/
def endArg (s : ArgState) : Option ArgState :=
  let arg := s.currArg
  let next (cmd : ParsedCommand) : ArgState := ⟨cmd, [], arg⟩
  if s.prevArg = ['>'] ∨ s.prevArg = ['>', '>'] then some (next { s.cmd with outFile := arg })
  else if s.prevArg = ['<'] then some (next { s.cmd with inFile := arg })
  else if arg = ['>'] then some (next { s.cmd with outRedirect := true, outAppend := false })
  else if arg = ['>', '>'] then some (next { s.cmd with outRedirect := true, outAppend := true })
  else if arg = ['<'] then some (next { s.cmd with inRedirect := true })
  else if s.cmd.argv.length < maxNumArgs then
    some (next { s.cmd with argv := s.cmd.argv ++ [arg] })
  else none

/-- The loop over the characters. -/
def scanArgs : List Char → ArgState → Option ArgState
  | [], s => if s.currArg = [] then some s else endArg s
  | c :: rest, s =>
    if isSpace c = false then
      if s.currArg.length < maxArgLen then scanArgs rest { s with currArg := s.currArg ++ [c] }
      else none
    else if s.currArg = [] then scanArgs rest s
    else if rest.head?.any isSpace then scanArgs rest s
    else (endArg s).bind fun s => scanArgs rest s

/-- `parseCmd`. -/
def parseCmd (shape : Command) (cmdInput : List Char) : Option ParsedCommand :=
  (scanArgs cmdInput ⟨initCmd shape cmdInput, [], []⟩).map ArgState.cmd

/-! ## Pipelines -/

/-- `command_pipe`. -/
structure CommandPipe where
  cmds : SList ParsedCommand
  isBackground : Bool

/-- `initCmdPipe`. -/
def initCmdPipe : CommandPipe :=
  ⟨.empty, false⟩

/-- `insertCmdInPipe`. -/
def insertCmdInPipe (pipe : CommandPipe) (cmd : ParsedCommand) : Option CommandPipe :=
  (pipe.cmds.append cmd).map fun cmds => { pipe with cmds := cmds }

/-- The search for the last character, from `k + 1` on : the character, and `k + 1`. -/
def scanBack (temp : List Char) : ℕ → Char → Char × ℕ
  | 0, c => (c, 0)
  | k + 1, c => if c = ' ' ∨ c = '\n' then scanBack temp k (temp.getD k nul) else (c, k + 1)

/-- Whether the command ends with `&`, and the command, where the `&` is cut off if a blank is
behind it. -/
def cutAmp (temp : List Char) : Bool × List Char :=
  let r := scanBack temp temp.length (temp.getD (temp.length - 1) nul)
  if r.1 = '&' then (true, temp.take r.2) else (false, temp)

/-- The commands of a block, from their texts. -/
def insertAlternatives (k : PipeCount) (strs : List (List Char)) (pipe : CommandPipe) :
    Option CommandPipe :=
  if strs.length < k.size then none
  else
    ((((List.range k.size).map k.command).zip strs).mapM fun r => parseCmd r.1 r.2).bind fun cmds =>
      cmds.foldlM insertCmdInPipe pipe

/-- A command behind `pipeCount - 1` empty fields. -/
def insertBlock (pipeCount : ℕ) (temp : List Char) (pipe : CommandPipe) : Option CommandPipe :=
  match pipeCount with
  | 1 => insertAlternatives .single [temp] pipe
  | 2 => insertAlternatives .double (temp.splitOn ',') pipe
  | 3 => insertAlternatives .triple (temp.splitOn ',') pipe
  | _ => none

/-- The loop over the fields. -/
def parseFields : ℕ → List (List Char) → CommandPipe → Option CommandPipe
  | _, [], pipe => some pipe
  | pipeCount, field :: fields, pipe =>
    if field = [] then parseFields (pipeCount + 1) fields pipe
    else
      let r := cutAmp field
      (insertBlock pipeCount r.2 { pipe with isBackground := pipe.isBackground || r.1 }).bind
        fun pipe => parseFields 1 fields pipe

/-! ## Shortcuts -/

/-- The string at the beginning of some memory. -/
def cstring (mem : List Char) : List Char :=
  mem.takeWhile fun c => c != nul

/-- The line is about a shortcut. -/
def IsShortcut (text : List Char) : Prop :=
  2 < text.length ∧ text.take 2 = ['s', 'c']

instance (text : List Char) : Decidable (IsShortcut text) :=
  inferInstanceAs (Decidable (_ ∧ _))

/-- The index, up to a blank, and what is behind it. -/
def scanIndex : List Char → ℕ → Option (ℕ × List Char)
  | [], _ => none
  | c :: mem, idx =>
    if c = ' ' ∨ c = '\n' then some (idx, mem)
    else if c.isDigit then scanIndex mem (idx * 10 + (c.toNat - 48))
    else none

/-- The `int` that a number wraps around to. `none` when it is negative, and no key. -/
def intIndex (idx : ℕ) : Option ℕ :=
  if idx % 4294967296 < 2147483648 then some (idx % 4294967296) else none

/-- The beginning of a line about a shortcut. -/
inductive ScLine where
  | exits
  | notNumber
  /-- The bucket of the index is in front of the buckets. -/
  | negative
  | line (flag : Char) (idx : ℕ) (rest : List Char)

def scLine (mem : List Char) : ScLine :=
  let text := cstring mem
  let scFlagIdx := text.findIdx (fun c => c == '-') + 1
  if scFlagIdx < text.length then
    let scFlag := mem.getD scFlagIdx nul
    if scFlag = 'i' ∨ scFlag = 'd' then
      let mem := mem.drop (scFlagIdx + 2)
      if mem.head?.any Char.isDigit then
        match scanIndex mem 0 with
        | some (idx, rest) => (intIndex idx).elim .negative fun idx => .line scFlag idx rest
        | none => .notNumber
      else .notNumber
    else .exits
  else .exits

theorem length_lt_of_scanIndex {mem rest : List Char} {idx₀ idx : ℕ}
    (h : scanIndex mem idx₀ = some (idx, rest)) : rest.length < mem.length := by
  induction mem generalizing idx₀ with
  | nil => cases h
  | cons c mem ih =>
    rw [scanIndex] at h
    split_ifs at h
    · cases h
      exact Nat.lt_succ_self _
    · exact (ih h).trans (Nat.lt_succ_self _)

theorem length_lt_of_scLine {mem rest : List Char} {flag : Char} {idx : ℕ}
    (h : scLine mem = .line flag idx rest) : rest.length < mem.length := by
  unfold scLine at h
  simp only at h
  split_ifs at h
  split at h
  · rename_i number rest' hscan
    have hlt := length_lt_of_scanIndex hscan
    cases hidx : intIndex number with
    | none =>
      rw [hidx] at h
      cases h
    | some idx =>
      rw [hidx] at h
      cases h
      rw [List.length_drop] at hlt
      omega
  · cases h

/-- What `createCmdPipe` returns, the pipeline that it was given, and the map. `stored` is the
pipeline that the call has put into the map. -/
structure Created (n : ℕ) [NeZero n] where
  ret : Bool
  pipe : CommandPipe
  stored : Option CommandPipe
  map : ShortcutMap CommandPipe n

variable {n : ℕ} [NeZero n]

/-- The answer that is read into `choice[10]`. `none` when it is longer. -/
def scanChoice (answer : List Char) : Option (List Char) :=
  if answer.length < 10 then some (cstring answer) else none

/-- The map that is ready for a new pipeline at the index, or none when the user keeps the old
one. `choice` is what the user answers. -/
def replaceInMap (choice : ℕ → List Char) (map : ShortcutMap CommandPipe n) (idx : ℕ) :
    Option (Option (ShortcutMap CommandPipe n)) :=
  if findInMap map idx = none then some (some map)
  else
    (scanChoice (choice idx)).bind fun choice =>
      if choice = ['y', 'e', 's'] then (deleteFromMap map idx).map fun r => some r.2
      else some none

/-- `createCmdPipe`, for a pipeline from `initCmdPipe`. -/
def createCmdPipe (choice : ℕ → List Char) (mem : List Char) (map : ShortcutMap CommandPipe n) :
    Option (Created n) :=
  if IsShortcut (cstring mem) then
    match _h : scLine mem with
    | .exits => none
    | .notNumber => some ⟨false, initCmdPipe, none, map⟩
    | .negative => none
    | .line flag idx rest =>
      if flag = 'i' then
        (replaceInMap choice map idx).bind fun
          | none => some ⟨false, initCmdPipe, none, map⟩
          | some map =>
            (createCmdPipe choice rest map).bind fun r =>
              (insertIntoMap r.map idx r.pipe).map fun map =>
                ⟨false, initCmdPipe, some r.pipe, map⟩
      else
        (deleteFromMap map idx).map fun r => ⟨false, initCmdPipe, none, r.2⟩
  else
    (parseFields 1 ((cstring mem).splitOn '|') initCmdPipe).map fun pipe =>
      ⟨true, pipe, none, map⟩
termination_by mem.length
decreasing_by exact length_lt_of_scLine _h

end NetProg.Shell
