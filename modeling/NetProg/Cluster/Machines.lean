import NetProg.Cluster.Framing
import NetProg.Cluster.MachineNames
import NetProg.Cluster.Stream

/-!
# The cluster, call by call

The handlers of the server run at the same time. They share the table of connections, its ports,
and the machines, and in the middle of a broadcast another handler may take a slot, give one back,
or have a machine run something. A step of `Threads` has at most one look of one handler at
`active_connections`, or one message to a machine and its answer.

A machine is the child of `clustershell_client` : it reads a message, finds the command and its
input in it, runs it, and writes the output. What its commands do is up to the operating system
(`Os`), whose state `ω` is all that they can read and change. A machine takes one connection at a
time, and its child is taken to run from the beginning. `none` is a write outside an array, an index
in front of one, or a label that is not possible. No two calls of `createCommandPipe` overlap : a
handler reads a line and parses it in one step.

`log` is for the proofs only : every action of the handlers, in order.
-/

namespace NetProg.Cluster

open Lib (CString)
open Lib.CString

/-! ## A machine -/

/-- Where the child of a client listens : the IP and the port. -/
abbrev Address :=
  List Char × ℤ

/-- What the commands of the machines do. -/
structure Os (ω : Type*) where
  /-- The child changes its directory. `none` is -1. -/
  chdir : ω → Address → List Char → Option ω
  /-- A command runs with an input. The text is what the one read of its output returns. -/
  popen : ω → Address → List Char → List Char → ω × List Char

variable {ω : Type*}

/-- The loop of the child from its read on, with the bytes that it writes. -/
def Os.serve (os : Os ω) (w : ω) (addr : Address) (read : List Char) : Option (ω × List Char) :=
  (receive read).bind fun buff =>
    match executeCmd buff with
    | .chdir path =>
      match os.chdir w addr path with
      | some w => some (w, [])
      | none =>
        (strcpy ("Error occurred while changing path to ".toList ++ path)).map
          fun buff : Output => (w, buff.chars)
    | .run command input =>
      let r := os.popen w addr command input
      some (r.1, (readOutput r.2).chars)

/-- What the network does with a message. `ran` : the machine has run it, and the answer is
lost. -/
inductive Net where
  | refused
  | writeError
  | readError (ran : Bool)
  | delivered
deriving DecidableEq, Repr

/-- What a handler gets for a message. -/
inductive Outcome where
  | refused
  | writeError
  | readError (ran : Bool)
  | output (text : List Char)
deriving DecidableEq, Repr

/-- After `refused`, the server has ended. -/
def Outcome.reply : Outcome → Option Reply
  | .refused => none
  | .writeError => some .writeError
  | .readError _ => some .readError
  | .output text => some (.output text)

/-- A message to a machine. -/
def Os.request (os : Os ω) (net : Net) (w : ω) (addr : Address) (input : List Char) :
    Option (ω × Outcome) :=
  match net with
  | .refused => some (w, .refused)
  | .writeError => some (w, .writeError)
  | .readError false => some (w, .readError false)
  | .readError true => (os.serve w addr input).map fun r => (r.1, .readError true)
  | .delivered => (os.serve w addr input).map fun r => (r.1, .output r.2)

/-! ## What the handlers share -/

/-- `active_connections`, `connection_ports` and the machines. `exited` is a server that has
ended. -/
structure Shared (ω : Type*) where
  active : Active
  ports : ℕ → ℤ
  world : ω
  exited : Bool

namespace Shared

/-- `active_connections[idx] = value`. -/
def setActive (s : Shared ω) (idx : ℕ) (value : Bool) : Shared ω :=
  { s with active := Function.update s.active idx value }

/-- `connection_ports[idx] = port`. -/
def setPort (s : Shared ω) (idx : ℕ) (port : ℤ) : Shared ω :=
  { s with ports := Function.update s.ports idx port }

/-- Where machine `i` is. -/
def address (config : Config) (s : Shared ω) (i : ℕ) : Address :=
  (config.data.getD i [], s.ports i)

end Shared

/-- An action of a handler, with what it got for it. -/
inductive Action where
  | register (ip : List Char) (slot : Option ℕ)
  | release (idx : ℕ)
  | setPort (idx : ℕ) (port : ℤ)
  | look (i : ℕ) (seen : Bool)
  | ask (i : ℕ) (text input : List Char) (outcome : Outcome)
  | read (bytes : Option (List Char))
  | write (text : List Char)
deriving DecidableEq, Repr

/-! ## A handler -/

/-- What a handler does with the output of a machine : it is the input of the next command, or one
of the outputs of a broadcast. -/
inductive Next where
  | pipe (cmds : List Command)
  | cast (cmds : List Command) (res : Output)

/-- Where a handler is : in front of a read, in the loop for `nodes`, in the loop over the
commands, in the loop over the machines, or in front of a message to machine `i`. -/
inductive Place where
  | created (ip : List Char)
  | readingPort (idx : ℕ)
  | readingCommand (idx : ℕ)
  | listing (idx i : ℕ) (res : Output)
  | piping (idx : ℕ) (cmds : List Command) (output : Output)
  | casting (idx : ℕ) (text : List Char) (cmds : List Command) (output : Output) (i : ℕ)
      (res : Output)
  | asking (idx : ℕ) (text : List Char) (i : ℕ) (output : Output) (next : Next)
  | ended

/-- What a handler has done in a step. -/
structure Turn (ω : Type*) where
  shared : Shared ω
  place : Place
  actions : List Action

/-- What the step of a handler needs from outside. -/
inductive Input where
  | read (bytes : Option (List Char))
  | turn (net : Net)

/-- Where a handler goes on with the output of machine `i`. -/
def Next.place (idx : ℕ) (text : List Char) (i : ℕ) (output temp : Output) : Next → Option Place
  | .pipe cmds => some (.piping idx cmds temp)
  | .cast cmds res =>
    (res.strcat temp.chars).map fun res => .casting idx text cmds output (i + 1) res

/-- A command is sent to machine `i`, and its output is read. -/
def askMachine (config : Config) (os : Os ω) (net : Net) (s : Shared ω) (idx : ℕ)
    (text : List Char) (i : ℕ) (output : Output) (next : Next) : Option (Turn ω) :=
  (fillInput text output).bind fun input =>
    (os.request net s.world (s.address config i) input).bind fun r =>
      let actions := [.ask i text output.chars r.2]
      match r.2.reply with
      | none => some ⟨{ s with exited := true }, .ended, actions⟩
      | some reply =>
        match sendCommand text i reply with
        | .error msg => (strcpy msg).map fun msg =>
          ⟨{ s with world := r.1 }, .piping idx [] msg, actions⟩
        | .ok bytes => (next.place idx text i output (readOutput bytes)).map fun place =>
          ⟨{ s with world := r.1 }, place, actions⟩

/-- The line of `nodes` for machine `i`. -/
def nodeLine (config : Config) (i : ℕ) : List Char :=
  'n' :: decimal (i + 1) ++ ' ' :: config.data.getD i [] ++ ['\n']

/-- The text for a machine number that is not in the config. -/
def invalidMachine (machine : ℤ) : List Char :=
  "Invalid machine name found: n".toList ++ decimal (machine + 1) ++
    ". Please verify that it exists in config in correct order.\n".toList

/-- The text for a machine that is not connected. -/
def notConnected (machine : ℤ) : List Char :=
  "Machine n".toList ++ decimal (machine + 1) ++ " is not connected.".toList

/-- A command line that a handler has read. -/
def lineRead (idx : ℕ) (line : List Char) : Place :=
  if line = ['n', 'o', 'd', 'e', 's'] then .listing idx 0 CString.empty
  else
    match createCommandPipe line with
    | none => .ended
    | some cmds => .piping idx cmds CString.empty

/-- The next part of `connectionHandler`. -/
def Place.step (config : Config) (os : Os ω) (s : Shared ω) : Place → Input → Option (Turn ω)
  | .created ip, .turn _ =>
    match registerClientConnection ip config s.active with
    | some idx => some ⟨s.setActive idx true, .readingPort idx, [.register ip (some idx)]⟩
    | none => some ⟨s, .ended, [.register ip none]⟩
  | .readingPort _, .read none => some ⟨s, .ended, [.read none]⟩
  | .readingPort idx, .read (some []) =>
    some ⟨s.setActive idx false, .ended, [.read (some []), .release idx]⟩
  | .readingPort idx, .read (some (c :: bytes)) =>
    (readString portLen (c :: bytes)).map fun port =>
      ⟨s.setPort idx (atoi port.chars), .readingCommand idx,
        [.read (some (c :: bytes)), .setPort idx (atoi port.chars)]⟩
  | .readingCommand idx, .read none =>
    some ⟨s.setActive idx false, .ended, [.read none, .release idx]⟩
  | .readingCommand idx, .read (some []) =>
    some ⟨s.setActive idx false, .ended, [.read (some []), .release idx]⟩
  | .readingCommand idx, .read (some (c :: bytes)) =>
    -- the read asks for `MAX_COMMAND_SIZE` bytes, and the parser copies the names of machines
    if (c :: bytes).length ≤ maxCommandSize ∧ NamesFit (cstr (c :: bytes) 0) then
      some ⟨s, lineRead idx (cstr (c :: bytes) 0), [.read (some (c :: bytes))]⟩
    else none
  | .listing idx i res, .turn _ =>
    if i < maxClientsAllowed then
      if s.active i = true then
        (res.strcat (nodeLine config i)).map fun res => ⟨s, .listing idx (i + 1) res, [.look i true]⟩
      else some ⟨s, .listing idx (i + 1) res, [.look i false]⟩
    else some ⟨s, .readingCommand idx, [.write res.chars]⟩
  | .piping idx [] output, .turn _ => some ⟨s, .readingCommand idx, [.write output.chars]⟩
  | .piping idx (cmd :: cmds) output, .turn _ =>
    if cmd.1 = 0 then some ⟨s, .casting idx cmd.2 cmds output 0 CString.empty, []⟩
    else
      let machine := machineOf idx cmd
      if machine ≥ config.count then
        (strcpy (invalidMachine machine)).map fun msg => ⟨s, .piping idx [] msg, []⟩
      else if machine < 0 then none
      else if s.active machine.toNat = false then
        (strcpy (notConnected machine)).map fun msg =>
          ⟨s, .piping idx [] msg, [.look machine.toNat false]⟩
      else
        some ⟨s, .asking idx cmd.2 machine.toNat output (.pipe cmds), [.look machine.toNat true]⟩
  | .casting idx text cmds output i res, .turn _ =>
    if i < config.count then
      if s.active i = false then
        some ⟨s, .casting idx text cmds output (i + 1) res, [.look i false]⟩
      else some ⟨s, .asking idx text i output (.cast cmds res), [.look i true]⟩
    else some ⟨s, .piping idx cmds res, []⟩
  | .asking idx text i output next, .turn net => askMachine config os net s idx text i output next
  | _, _ => none

/-! ## All handlers -/

/-- The handlers, what they share, and what they have done. -/
structure Threads (ι ω : Type*) where
  places : ι → Place
  shared : Shared ω
  log : List (ι × Action)

namespace Threads

variable {ι : Type*} [DecidableEq ι]

/-- Handlers for connections from the given IPs, before they have done anything. -/
def init (ips : ι → List Char) (w : ω) : Threads ι ω where
  places t := .created (ips t)
  shared := ⟨fun _ => false, fun _ => 0, w, false⟩
  log := []

/-- One step : handler `l.1` goes on. -/
def step (config : Config) (os : Os ω) (s : Threads ι ω) (l : ι × Input) : Option (Threads ι ω) :=
  if s.shared.exited then none
  else
    ((s.places l.1).step config os s.shared l.2).map fun r =>
      ⟨Function.update s.places l.1 r.place, r.shared, s.log ++ r.actions.map fun a => (l.1, a)⟩

end Threads

end NetProg.Cluster
