import NetProg.Shell.Arguments
import NetProg.Shell.Wiring

/-!
# Redirections

When its pipes are wired, a command with redirections opens their files and puts them in place
of descriptors 1 and 0. Then it calls `execvp`. `redirect` is this part of `executeCmdPipe`,
from the descriptors that the wiring leaves on. `intended` says what the program should
get, from what the text describes.

`executeCmdPipe` opens `out_file` for the input as well. So a text is run as intended if and
only if it has no `<`, or names one file for both directions (`redirects_iff`), and its
arguments fit in their blocks.
-/

namespace NetProg.Shell

open Lib

/-! ## Files -/

/-- The flags that `open` is called with. -/
inductive OpenMode where
  | read
  | truncate
  | append
deriving DecidableEq, Repr

/-- A call of `open`. -/
structure OpenCall where
  name : List Char
  mode : OpenMode
deriving DecidableEq, Repr

/-- What a descriptor stands for : what the pipe wiring has put there, or a file. -/
inductive Stream where
  | wired (f : File)
  | opened (call : OpenCall)
deriving DecidableEq, Repr

/-- Whether a call of `open` succeeds after those that were made. -/
abbrev FileSystem :=
  List OpenCall → OpenCall → Bool

/-- The process of a command, with the calls of `open` that it has made. -/
structure Child where
  fds : FdTable Stream
  opens : List OpenCall

/-- `open` a file, `dup2` it to `new`, and `close` it. `none` is a failed assertion. -/
def openOver (fs : FileSystem) (call : OpenCall) (new : ℕ) (c : Child) : Option Child :=
  if fs c.opens call then
    let r := c.fds.openFile (.opened call)
    (r.2.dup2 r.1 new).map fun fds => ⟨fds.close r.1, c.opens ++ [call]⟩
  else none

/-! ## The branch of a command -/

/-- The call of `open` for the output. -/
def outputCall (cmd : ParsedCommand) : OpenCall :=
  ⟨cmd.outFile, if cmd.outAppend then .append else .truncate⟩

/-- The output redirection. -/
def outputRedirection (fs : FileSystem) (cmd : ParsedCommand) (c : Child) : Option Child :=
  if cmd.outRedirect then openOver fs (outputCall cmd) 1 c else some c

/-- The input redirection. -/
def inputRedirection (fs : FileSystem) (cmd : ParsedCommand) (c : Child) : Option Child :=
  if cmd.inRedirect then openOver fs ⟨cmd.outFile, .read⟩ 0 c else some c

/-- What `execvp` is called with. -/
structure Execution where
  stdin : Option Stream
  stdout : Option Stream
  argv : List (List Char)
deriving DecidableEq, Repr

/-- The branch of a command, from the descriptors that the wiring leaves to `execvp`. -/
def redirect (fs : FileSystem) (cmd : ParsedCommand) (t : FdTable File) : Option Execution :=
  ((outputRedirection fs cmd ⟨t.map .wired, []⟩).bind (inputRedirection fs cmd)).map fun c =>
    ⟨c.fds.get 0, c.fds.get 1, cmd.argv⟩

/-! ## What a text asks for -/

/-- Descriptors with an input and an output of the pipeline. -/
structure Inherited where
  table : FdTable File
  stdin : File
  stdout : File
  get_zero : table.get 0 = some stdin
  get_one : table.get 1 = some stdout

/-- The file that the output of a command should go to. -/
def outputFile (cmd : ParsedCommand) : Option OpenCall :=
  if cmd.outRedirect then some (outputCall cmd) else none

/-- The file that the input of a command should come from. -/
def inputFile (cmd : ParsedCommand) : Option OpenCall :=
  if cmd.inRedirect then some ⟨cmd.inFile, .read⟩ else none

/-- What the program of a command should get, when the files of its redirections can be opened :
the files, or what it has from the pipeline. -/
def intended (fs : FileSystem) (cmd : ParsedCommand) (inh : Inherited) : Option Execution :=
  if (∀ call ∈ outputFile cmd, fs [] call) ∧
      ∀ call ∈ inputFile cmd, fs (outputFile cmd).toList call then
    some ⟨some (((inputFile cmd).map .opened).getD (.wired inh.stdin)),
      some (((outputFile cmd).map .opened).getD (.wired inh.stdout)), cmd.argv⟩
  else none

/-- In every pipeline and with every file system, the text is run as it describes. -/
def Redirects (usable : ℕ) (shape : Command) (cmdInput : List Char) : Prop :=
  ∃ cmd, parseCmdIn usable shape cmdInput = .ok cmd ∧ ∀ (fs : FileSystem) (inh : Inherited),
    redirect fs cmd inh.table = intended fs (described shape cmdInput) inh

/-- The text has no `<`, or the last file behind `<` has the name of the last one behind `>` or
`>>`. -/
def OneFile (cmdInput : List Char) : Prop :=
  let ws := words Cluster.isSpace cmdInput
  ['<'] ∈ inPosition atSign [] ws →
    (inPosition atInFile [] ws).getLast?.getD [] = (inPosition atOutFile [] ws).getLast?.getD []

instance (cmdInput : List Char) : Decidable (OneFile cmdInput) :=
  inferInstanceAs (Decidable (_ → _))

/-! ## The branch -/

variable {fs : FileSystem} {cmd : ParsedCommand} {c : Child} {call : OpenCall} {new : ℕ}

/-- A file takes the place of a descriptor that is open, and the other descriptors stay. -/
theorem openOver_spec {f : Stream} (hnew : c.fds.get new = some f) (hfs : fs c.opens call = true) :
    ∃ c', openOver fs call new c = some c' ∧ c'.opens = c.opens ++ [call] ∧
      c'.fds.get new = some (.opened call) ∧
      ∀ fd g, fd ≠ new → c.fds.get fd = some g → c'.fds.get fd = some g := by
  have hget : (c.fds.place c.fds.free (.opened call)).get c.fds.free = some (.opened call) :=
    FdTable.get_place_self _ _ _
  refine ⟨⟨((c.fds.place c.fds.free (.opened call)).place new (.opened call)).close c.fds.free,
    c.opens ++ [call]⟩, ?_, rfl, ?_, fun fd g hfd hg => ?_⟩
  · rw [openOver, if_pos hfs]
    simp only [FdTable.openFile, FdTable.dup2, hget, Option.map_some]
  · rw [FdTable.get_close, if_neg (FdTable.ne_free hnew), FdTable.get_place_self]
  · rw [FdTable.get_close, if_neg (FdTable.ne_free hg), FdTable.get_place, if_neg hfd,
      FdTable.get_place_free hg]

/-- A redirection that a command may have. -/
def openIf (fs : FileSystem) (call : Option OpenCall) (new : ℕ) (c : Child) : Option Child :=
  call.elim (some c) fun call => openOver fs call new c

theorem openIf_spec {f : Stream} {call : Option OpenCall} (hnew : c.fds.get new = some f)
    (hfs : ∀ call' ∈ call, fs c.opens call' = true) :
    ∃ c', openIf fs call new c = some c' ∧ c'.opens = c.opens ++ call.toList ∧
      c'.fds.get new = some ((call.map .opened).getD f) ∧
      ∀ fd g, fd ≠ new → c.fds.get fd = some g → c'.fds.get fd = some g := by
  cases call with
  | none => exact ⟨c, rfl, (List.append_nil _).symm, hnew, fun _ _ _ h => h⟩
  | some call =>
    obtain ⟨c', hopen, hopens, hget, hkeep⟩ := openOver_spec hnew (hfs call rfl)
    exact ⟨c', hopen, hopens, hget, hkeep⟩

theorem openIf_eq_none {call : Option OpenCall} (hfs : ¬∀ call' ∈ call, fs c.opens call' = true) :
    openIf fs call new c = none := by
  cases call with
  | none => exact absurd (fun _ h => by cases h) hfs
  | some call =>
    refine if_neg fun h => hfs fun call' h' => ?_
    obtain rfl := Option.some.inj h'
    exact h

theorem outputRedirection_eq : outputRedirection fs cmd c = openIf fs (outputFile cmd) 1 c := by
  unfold outputRedirection outputFile
  split_ifs <;> rfl

theorem inputRedirection_eq :
    inputRedirection fs cmd c = openIf fs (inputFile { cmd with inFile := cmd.outFile }) 0 c := by
  unfold inputRedirection inputFile
  split_ifs <;> rfl

/-- The branch gives the program what is intended for a command whose input file is its output
file. -/
theorem redirect_eq (inh : Inherited) :
    redirect fs cmd inh.table = intended fs { cmd with inFile := cmd.outFile } inh := by
  have h0 : (inh.table.map Stream.wired).get 0 = some (.wired inh.stdin) := by
    rw [FdTable.get_map, inh.get_zero, Option.map_some]
  have h1 : (inh.table.map Stream.wired).get 1 = some (.wired inh.stdout) := by
    rw [FdTable.get_map, inh.get_one, Option.map_some]
  have hsame : outputFile { cmd with inFile := cmd.outFile } = outputFile cmd := rfl
  unfold redirect intended
  rw [outputRedirection_eq, hsame]
  generalize outputFile cmd = out
  by_cases hout : ∀ call ∈ out, fs [] call = true
  · obtain ⟨c, hc, hopens, hone, hkeep⟩ :=
      openIf_spec (c := ⟨inh.table.map .wired, []⟩) h1 hout
    rw [hc, Option.bind_some, inputRedirection_eq]
    generalize inputFile { cmd with inFile := cmd.outFile } = inp
    have hopens' : c.opens = out.toList := hopens
    rw [← hopens']
    by_cases hinp : ∀ call ∈ inp, fs c.opens call = true
    · obtain ⟨c', hc', -, hzero, hkeep'⟩ := openIf_spec (hkeep 0 _ (by decide) h0) hinp
      rw [hc', Option.map_some, hzero, hkeep' 1 _ (by decide) hone, if_pos ⟨hout, hinp⟩]
    · rw [openIf_eq_none hinp, if_neg fun h => hinp h.2]
      rfl
  · rw [openIf_eq_none hout, if_neg fun h => hout h.1]
    rfl

/-- Two input files are the same to every file system if they have one name, or are not used. -/
theorem intended_eq_iff (inh : Inherited) (file : List Char) :
    (∀ fs, intended fs { cmd with inFile := file } inh = intended fs cmd inh) ↔
      (cmd.inRedirect = true → cmd.inFile = file) := by
  constructor
  · intro h hin
    have hall := h fun _ _ => true
    simp only [intended, inputFile, hin, if_true, Option.map_some, Option.getD_some] at hall
    simp at hall
    exact hall.1.symm
  · intro h fs
    have hinput : inputFile { cmd with inFile := file } = inputFile cmd := by
      unfold inputFile
      split_ifs with hin
      · rw [h hin]
      · rfl
    simp only [intended, hinput]
    rfl

/-- Every command of a pipeline comes to its redirections with an input and an output. -/
theorem exists_inherited {bs : List PipeCount} {i : ℕ} {shape : Command} {pipeFd : PipeFds}
    {leader : FdTable File} {p : Proc} {k : Kernel} (hfirst : last bs 0 = 0)
    (hi : i < (commands bs).length) (hshape : (commands bs)[i]? = some shape)
    (hn : Numbers pipeFd ((commands bs).length - 1))
    (h : Wired pipeFd ((commands bs).length - 1) i (i - 1) p.fds)
    (hcount : (commands bs).length - 1 ≤ k.count)
    (hend : i ≠ 0 → ¬leader.Holds (.writeEnd (i - 1))) :
    ∃ (p' : Proc) (k' : Kernel) (inh : Inherited),
      Runs leader (readCode pipeFd (commands bs).length i shape ++
        writeCode pipeFd (commands bs).length i shape) p k p' k' ∧
      inh.table = p'.fds ∧ Fed bs i k k' inh.stdin ∧
      inh.stdout = ((outPipe bs i).map .writeEnd).getD .shellOut := by
  obtain ⟨p', k', f, hruns, hwired, -, hfed, -⟩ :=
    wiringCode_runs hfirst hi hshape hn h hcount hend
  exact ⟨p', k', ⟨p'.fds, f, _, hwired.stdin, hwired.stdout⟩, hruns, rfl, hfed, rfl⟩

/-! ## Texts -/

variable {usable : ℕ} {shape : Command} {cmdInput : List Char}

/-- The descriptors of the shell itself. -/
def shellTable : Inherited :=
  ⟨[some .shellIn, some .shellOut], .shellIn, .shellOut, rfl, rfl⟩

theorem oneFile_of_redirects (h : Redirects usable shape cmdInput) : OneFile cmdInput := by
  obtain ⟨cmd, hparse, hrun⟩ := h
  obtain rfl : described shape cmdInput = cmd := by
    rw [parseCmdIn_eq] at hparse
    split_ifs at hparse
    exact Except.ok.inj hparse
  have heq := (intended_eq_iff shellTable _).1 fun fs =>
    (redirect_eq _).symm.trans (hrun fs shellTable)
  exact fun hsign => heq (decide_eq_true hsign)

/-- A text within the limits is run as it describes if and only if its arguments fit in their
blocks, and it has no `<` or one file for both directions. -/
theorem redirects_iff (hlimits : WithinLimits cmdInput) : Redirects usable shape cmdInput ↔
    (∀ arg ∈ (described shape cmdInput).argv, arg.length < usable) ∧ OneFile cmdInput := by
  have hstored : storedArgs cmdInput = (described shape cmdInput).argv := storedArgs_eq hlimits
  constructor
  · intro h
    refine ⟨?_, oneFile_of_redirects h⟩
    obtain ⟨cmd, hparse, -⟩ := h
    rw [parseCmdIn_eq, hstored] at hparse
    by_contra hlong
    rw [if_neg hlong] at hparse
    cases hparse
  · rintro ⟨hfit, hfile⟩
    refine ⟨described shape cmdInput, ?_, fun fs inh => ?_⟩
    · rw [parseCmdIn_eq, hstored, if_pos hfit, if_pos hlimits]
    · rw [redirect_eq]
      refine (intended_eq_iff inh _).2 (fun hin => ?_) fs
      exact hfile (of_decide_eq_true hin)

/-- The last of two files gets the output. -/
def appended : List Char :=
  "sort > first -u >> second".toList

theorem redirects_appended : Redirects 31 (PipeCount.single.command 0) appended :=
  (redirects_iff (by decide)).2 (by decide)

/-- A file for the input. -/
def sorted : List Char :=
  "sort -u < in > out".toList

/-- The program reads `out`. -/
theorem not_redirects_sorted : WithinLimits sorted ∧
    ¬Redirects 31 (PipeCount.single.command 0) sorted :=
  ⟨by decide, fun h => absurd (oneFile_of_redirects h) (by decide)⟩

end NetProg.Shell
