import NetProg.Lib.FdTable
import NetProg.Lib.Run
import NetProg.Shell.Pipeline

/-!
# Running a pipeline

`executeCmdPipe` forks a leader, which creates the pipes and then forks the commands one
after the other. A command wires its descriptors (`childCode`) and calls `execvp`. What it
does then is up to the program : it reads descriptor 0, writes descriptor 1, and exits. The
leader meanwhile closes its ends of the pipes and waits.

A step is one system call of the leader, one system call of the command, or one action of
the program. Pipes are unbounded. The loop that copies the upstream pipe into `pipe_data`
is one call, which returns at end of file. `fork`, `pipe` and `execvp` are taken to succeed,
and there are no redirections.
-/

namespace NetProg.Shell

/-- What a descriptor can stand for : the input and the output of the shell, an end of a
pipe, or another file that the shell has open. -/
inductive File where
  | shellIn
  | shellOut
  | readEnd (p : ℕ)
  | writeEnd (p : ℕ)
  | other (k : ℕ)
deriving DecidableEq, Repr

/-- `pipe_fd`. -/
abbrev PipeFds :=
  ℕ → ℕ × ℕ

/-! ## The code of a command -/

/-- A descriptor that is known, or an entry of `temp_fd`. -/
inductive Operand where
  | num (fd : ℕ)
  | temp0
  | temp1
deriving DecidableEq, Repr

/-- `readAll` is the loop that reads into `pipe_data`, `pipe` creates `temp_fd`, and `write`
writes `pipe_data`. -/
inductive Syscall where
  | readAll (fd : Operand)
  | pipe
  | write (fd : Operand)
  | close (fd : Operand)
  | dup2 (fd : Operand) (new : ℕ)
  | execvp (i : ℕ)
deriving DecidableEq, Repr

/-- What `closeAllFdExcept` closes. `none` is -1. -/
def fdsExcept (pipeFd : PipeFds) (n : ℕ) (exceptFd : Option ℕ) (isRead : Bool) : List ℕ :=
  ((List.range n).map fun i => if isRead then (pipeFd i).1 else (pipeFd i).2).filter
    fun fd => some fd ≠ exceptFd

/-- `closeAllFdExcept`. -/
def closeAllFdExcept (pipeFd : PipeFds) (n : ℕ) (exceptFd : Option ℕ) (isRead : Bool) :
    List Syscall :=
  (fdsExcept pipeFd n exceptFd isRead).map fun fd => .close (.num fd)

/-- An alternative that has another one on its right. -/
def Tees (count i : ℕ) (cmd : Command) : Prop :=
  i + 1 < count ∧
    (cmd.parOffset = -1 ∨ cmd.parOffset = -2 ∧ cmd.prevPipeCount = .triple)

instance (count i : ℕ) (cmd : Command) : Decidable (Tees count i cmd) :=
  inferInstanceAs (Decidable (_ ∧ _))

/-- Copy the upstream pipe to a pipe of the command's own, which becomes its input, and to the
pipe of the alternative on the right. -/
def teeCode (pipeFd : PipeFds) (i : ℕ) : List Syscall :=
  [.readAll (.num (pipeFd (i - 1)).1), .pipe, .write .temp1, .close .temp1, .dup2 .temp0 0,
    .write (.num (pipeFd i).2)]

/-- `write_fd`. `none` is -1, for the output of the shell. -/
def writeFd (pipeFd : PipeFds) (count i : ℕ) (cmd : Command) : Option ℕ :=
  if i + 1 ≠ count then
    if cmd.parOffset = -1 then
      match cmd.prevPipeCount with
      | .double => if i + 2 ≠ count then some (pipeFd (i + 1)).2 else none
      | .triple => if i + 3 ≠ count then some (pipeFd (i + 2)).2 else none
      | .single => some (pipeFd i).2
    else if cmd.parOffset = -2 then
      match cmd.prevPipeCount with
      | .triple => if i + 2 ≠ count then some (pipeFd (i + 1)).2 else none
      | _ => some (pipeFd i).2
    else some (pipeFd i).2
  else none

/-- `dup2` of a descriptor that is not -1. -/
def dup2Code (fd : Option ℕ) (new : ℕ) : List Syscall :=
  (fd.map fun fd => .dup2 (.num fd) new).toList

/-- The input of command `i`. -/
def readCode (pipeFd : PipeFds) (count i : ℕ) (cmd : Command) : List Syscall :=
  let readPipe := if Tees count i cmd then none else some (pipeFd (i - 1)).1
  (if Tees count i cmd then teeCode pipeFd i else []) ++
    if i ≠ 0 then closeAllFdExcept pipeFd (count - 1) readPipe true ++ dup2Code readPipe 0
    else closeAllFdExcept pipeFd (count - 1) none true

/-- The output of command `i`. -/
def writeCode (pipeFd : PipeFds) (count i : ℕ) (cmd : Command) : List Syscall :=
  closeAllFdExcept pipeFd (count - 1) (writeFd pipeFd count i cmd) false ++
    dup2Code (writeFd pipeFd count i cmd) 1

/-- What the process of command `i` does up to `execvp`. -/
def childCode (pipeFd : PipeFds) (count i : ℕ) (cmd : Command) : List Syscall :=
  readCode pipeFd count i cmd ++ (writeCode pipeFd count i cmd ++ [.execvp i])

/-! ## System calls -/

/-- What the process of a command has of its own. -/
structure Proc where
  fds : FdTable File
  pipeData : List UInt8
  tempFd : ℕ × ℕ

/-- What is in the pipes, and how many there are. `started` is a ghost : the commands that have
reached `execvp`. -/
structure Kernel where
  pipes : ℕ → List UInt8
  count : ℕ
  started : List ℕ

/-- A call waits, or it fails and the process ends, or it returns. -/
inductive Outcome (α : Type) where
  | blocked
  | failed
  | done (a : α)

/-- The number that an operand stands for. -/
def Operand.eval (p : Proc) : Operand → ℕ
  | num fd => fd
  | temp0 => p.tempFd.1
  | temp1 => p.tempFd.2

/-- The leader or the command has the file open. -/
def Open (leader fds : FdTable File) (f : File) : Prop :=
  leader.Holds f ∨ fds.Holds f

instance (leader fds : FdTable File) (f : File) : Decidable (Open leader fds f) :=
  inferInstanceAs (Decidable (_ ∨ _))

/-- A call of a command. End of file takes that the write end is open nowhere, and a write that
the read end is open somewhere. -/
def Syscall.exec (leader : FdTable File) (p : Proc) (k : Kernel) : Syscall → Outcome (Proc × Kernel)
  | readAll fd =>
    match p.fds.get (fd.eval p) with
    | some (.readEnd q) =>
      if Open leader p.fds (.writeEnd q) then .blocked
      else .done ({ p with pipeData := k.pipes q },
        { k with pipes := Function.update k.pipes q [] })
    | _ => .blocked
  | pipe =>
    let r := p.fds.openFile (.readEnd k.count)
    let w := r.2.openFile (.writeEnd k.count)
    .done ({ p with fds := w.2, tempFd := (r.1, w.1) },
      { k with pipes := Function.update k.pipes k.count [], count := k.count + 1 })
  | write fd =>
    match p.fds.get (fd.eval p) with
    | some (.writeEnd q) =>
      if Open leader p.fds (.readEnd q) then
        .done (p, { k with pipes := Function.update k.pipes q (k.pipes q ++ p.pipeData) })
      else .failed
    | _ => .failed
  | close fd => .done ({ p with fds := p.fds.close (fd.eval p) }, k)
  | dup2 fd new =>
    match p.fds.dup2 (fd.eval p) new with
    | some fds => .done ({ p with fds := fds }, k)
    | none => .failed
  | execvp i => .done (p, { k with started := k.started ++ [i] })

/-! ## The processes -/

/-- Where the leader is in its loop. -/
inductive LeaderPc where
  | fork (i : ℕ)
  | closeWrite (i : ℕ)
  | closeRead (i : ℕ)
  | waiting (i : ℕ)
  | exited
deriving DecidableEq, Repr

/-- The process of the last command that was forked, with the code it has still to run. -/
inductive Job where
  | none
  | running (i : ℕ) (code : List Syscall) (p : Proc)
  | zombie

/-- `tty` is what was written to the output of the shell. The last three fields are ghosts : what
each command has written and read, and whether it has seen end of file. -/
structure State where
  leader : FdTable File
  pc : LeaderPc
  job : Job
  kernel : Kernel
  tty : List UInt8
  out : ℕ → List UInt8
  got : ℕ → List UInt8
  eof : ℕ → Bool

/-- A step of the leader, a system call of the command, or an action of its program. -/
inductive Label where
  | leader
  | syscall
  | read (n : ℕ)
  | readShell (bytes : List UInt8)
  | readEof
  | write (bytes : List UInt8)
  | exit
deriving DecidableEq, Repr

/-- The loop of the leader. -/
def leaderStep (cmds : List Command) (pipeFd : PipeFds) (s : State) : Option State :=
  let count := cmds.length
  match s.pc with
  | .fork i =>
    match cmds[i]? with
    | some cmd =>
      some { s with pc := .closeWrite i,
                    job := .running i (childCode pipeFd count i cmd) ⟨s.leader, [], (0, 0)⟩ }
    | none =>
      some { s with pc := .exited,
                    leader := s.leader.closeAll (fdsExcept pipeFd (count - 1) none true ++
                      fdsExcept pipeFd (count - 1) none false) }
  | .closeWrite i =>
    some { s with pc := .closeRead i,
                  leader := if i + 1 ≠ count then s.leader.close (pipeFd i).2 else s.leader }
  | .closeRead i =>
    some { s with pc := .waiting i,
                  leader := if i ≠ 0 then s.leader.close (pipeFd (i - 1)).1 else s.leader }
  | .waiting i =>
    match s.job with
    | .zombie => some { s with pc := .fork (i + 1), job := .none }
    | _ => none
  | .exited => none

/-- The next system call of the command. -/
def syscallStep (s : State) : Option State :=
  match s.job with
  | .running i (c :: code) p =>
    match c.exec s.leader p s.kernel with
    | .blocked => none
    | .failed => some { s with job := .zombie }
    | .done (p, k) => some { s with job := .running i code p, kernel := k }
  | _ => none

/-- An action of the program that the command runs. -/
def programStep (s : State) (i : ℕ) (p : Proc) : Label → Option State
  | .read n =>
    match p.fds.get 0 with
    | some (.readEnd q) =>
      if 0 < n ∧ n ≤ (s.kernel.pipes q).length then
        some { s with
          kernel := { s.kernel with
            pipes := Function.update s.kernel.pipes q ((s.kernel.pipes q).drop n) }
          got := Function.update s.got i (s.got i ++ (s.kernel.pipes q).take n) }
      else none
    | _ => none
  | .readShell bytes =>
    match p.fds.get 0 with
    | some .shellIn => some { s with got := Function.update s.got i (s.got i ++ bytes) }
    | _ => none
  | .readEof =>
    match p.fds.get 0 with
    | some (.readEnd q) =>
      if s.kernel.pipes q = [] ∧ ¬Open s.leader p.fds (.writeEnd q) then
        some { s with eof := Function.update s.eof i true }
      else none
    | _ => none
  | .write bytes =>
    match p.fds.get 1 with
    | some .shellOut =>
      some { s with tty := s.tty ++ bytes, out := Function.update s.out i (s.out i ++ bytes) }
    | some (.writeEnd q) =>
      if Open s.leader p.fds (.readEnd q) then
        some { s with
          kernel := { s.kernel with
            pipes := Function.update s.kernel.pipes q (s.kernel.pipes q ++ bytes) }
          out := Function.update s.out i (s.out i ++ bytes) }
      else some { s with job := .zombie }
    | _ => none
  | .exit => some { s with job := .zombie }
  | _ => none

/-- The command acts once it has reached `execvp`. -/
def jobStep (s : State) (l : Label) : Option State :=
  match s.job with
  | .running i [] p => programStep s i p l
  | _ => none

/-- One step of the pipeline. -/
def step (cmds : List Command) (pipeFd : PipeFds) (s : State) : Label → Option State
  | .leader => leaderStep cmds pipeFd s
  | .syscall => syscallStep s
  | l => jobStep s l

/-- The pipes that the leader creates. -/
def createPipes (t : FdTable File) : ℕ → FdTable File × PipeFds
  | 0 => (t, fun _ => (0, 0))
  | n + 1 =>
    let s := createPipes t n
    let r := s.1.openFile (.readEnd n)
    let w := r.2.openFile (.writeEnd n)
    (w.2, Function.update s.2 n (r.1, w.1))

/-- The leader has created the pipes. -/
def init (count : ℕ) (t : FdTable File) : State where
  leader := (createPipes t (count - 1)).1
  pc := .fork 0
  job := .none
  kernel := ⟨fun _ => [], count - 1, []⟩
  tty := []
  out _ := []
  got _ := []
  eof _ := false

/-- Run a pipeline from a shell with the descriptors `t`. -/
def executeCmdPipe (cmds : List Command) (t : FdTable File) (ls : List Label) : Option State :=
  run (step cmds (createPipes t (cmds.length - 1)).2) (init cmds.length t) ls

end NetProg.Shell
