import NetProg.Cluster.Strtok

/-!
# The handlers of the cluster shell

The server runs a thread for each connection. `registerClientConnection` gives the thread a
slot, which is an index into the config with the IP of the client. The thread reads the
port of the client and then its commands, until a read fails or finds the connection
closed. The table of slots, `active_connections`, is shared by all threads.

A step is a new connection, or a thread going on to its next read or its next call of `strtok`.
What the network returns is part of the label. The cursor of `strtok` is shared by all threads, so
that a handler may find the line of another one, and its commands point into the buffer that it
found them in. The arrays for output and for the name of a machine are taken to be large enough.
-/

namespace NetProg.Cluster

/-- `MAX_CLIENTS_ALLOWED`. -/
def maxClientsAllowed : ℕ :=
  100

/-- `MAX_COMMAND_SIZE`. -/
def maxCommandSize : ℕ :=
  1024

/-- `parsed_config` : the IP of each machine. -/
structure Config where
  data : List (List Char)
  length_le : data.length ≤ maxClientsAllowed

/-- `config->count`. -/
def Config.count (config : Config) : ℕ :=
  config.data.length

/-- `active_connections`. -/
abbrev Active :=
  ℕ → Bool

/-- `registerClientConnection`. `none` is -1. -/
def registerClientConnection (ip : List Char) (config : Config) (active : Active) : Option ℕ :=
  (List.range (min maxClientsAllowed config.count)).find? fun i =>
    config.data[i]? = some ip && !active i

/-- What sending a command to a machine comes to. -/
inductive Reply where
  | writeError
  | readError
  | output (text : List Char)
deriving DecidableEq, Repr

/-- `%d`. -/
def decimal (n : ℤ) : List Char :=
  (toString n).toList

/-- Send a command to machine `i`, counted from 0. An error is the text for the client. -/
def sendCommand (text : List Char) (i : ℤ) : Reply → Except (List Char) (List Char)
  | .writeError => .error ("Error in writing command ".toList ++ text ++ " to machine n".toList ++
      decimal (i + 1) ++ ".\n".toList)
  | .readError => .error ("Error in reading output of command ".toList ++ text ++
      " from machine n".toList ++ decimal (i + 1) ++ ".\n".toList)
  | .output out => .ok out

/-- Run one command of a pipeline. `stray` is what `active_connections` has at a negative index. -/
def runCommand (config : Config) (active : Active) (idx : ℕ) (cmd : Command) (reply : ℤ → Reply)
    (stray : Bool) : Except (List Char) (List Char) :=
  if cmd.1 = 0 then
    ((List.range config.count).filter fun i => active i).foldlM
      (fun res i => (sendCommand cmd.2 i (reply i)).map fun out => res ++ out) []
  else
    let machine := if cmd.1 = -1 then (idx : ℤ) else cmd.1 - 1
    if machine ≥ config.count then
      .error ("Invalid machine name found: n".toList ++ decimal (machine + 1) ++
        ". Please verify that it exists in config in correct order.\n".toList)
    else if (if 0 ≤ machine then active machine.toNat else stray) = false then
      .error ("Machine n".toList ++ decimal (machine + 1) ++ " is not connected.".toList)
    else sendCommand cmd.2 machine (reply machine)

/-- The answer to `nodes`. -/
def nodesText (config : Config) (active : Active) : List Char :=
  ((List.range maxClientsAllowed).filter fun i => active i).flatMap fun (i : ℕ) =>
    'n' :: decimal (i + 1) ++ ' ' :: config.data.getD i [] ++ ['\n']

/-- Where a handler is. `first` says that its next call of `strtok` is the one for `buff`. -/
inductive HandlerPc where
  | created
  | readingPort (idx : ℕ)
  | readingCommand (idx : ℕ)
  | parsing (idx : ℕ) (pipe : List (Cmd ℕ)) (first : Bool)
  | executing (idx : ℕ) (cmds : List (Cmd ℕ)) (output : List Char)
  | ended
deriving DecidableEq, Repr

/-- A handler thread and the texts it has written to its client. -/
structure Handler where
  clientIp : List Char
  pc : HandlerPc
  sent : List (List Char)
deriving DecidableEq, Repr

/-- The slot that a handler holds. -/
def Handler.idx (h : Handler) : Option ℕ :=
  match h.pc with
  | .readingPort idx | .readingCommand idx | .parsing idx _ _ | .executing idx _ _ => some idx
  | .created | .ended => none

/-- The server, with the buffer of each handler and the cursor that `strtok` has saved. `exited` is
a process that has ended. -/
structure Server where
  active : Active
  ports : ℕ → ℤ
  buff : ℕ → List Char
  saved : Option (ℕ × ℕ)
  handlers : List Handler
  exited : Bool

/-- A read returns `none` for -1 and the empty text when the connection is closed. `parse` is a call
of `strtok` and the loop body behind it. -/
inductive Event where
  | accept (ip : List Char)
  | register (k : ℕ)
  | readPort (k : ℕ) (read : Option (List Char))
  | readCommand (k : ℕ) (read : Option (List Char))
  | parse (k : ℕ)
  | execute (k : ℕ) (reply : ℤ → Reply) (stray : Bool)
  | exit

namespace Server

/-- The server before the first connection. -/
def init : Server where
  active _ := false
  ports _ := 0
  buff _ := []
  saved := none
  handlers := []
  exited := false

/-- Handler `k` goes on at `pc`. -/
def goto (s : Server) (k : ℕ) (h : Handler) (pc : HandlerPc) : Server :=
  { s with handlers := s.handlers.set k { h with pc := pc } }

/-- Handler `k` writes a text to its client and goes on at `pc`. -/
def answer (s : Server) (k : ℕ) (h : Handler) (text : List Char) (pc : HandlerPc) : Server :=
  { s with handlers := s.handlers.set k { h with pc := pc, sent := h.sent ++ [text] } }

/-- `active_connections[idx] = value`. -/
def setActive (s : Server) (idx : ℕ) (value : Bool) : Server :=
  { s with active := Function.update s.active idx value }

/-- `read` into the buffer of handler `k`, and the NUL behind the bytes. What an older line has left
further behind stays. -/
def fill (s : Server) (k : ℕ) (bytes : List Char) : Server :=
  let buff := bytes ++ nul :: (s.buff k).drop (bytes.length + 1)
  { s with buff := Function.update s.buff k buff }

/-- Where the next call of `strtok` by handler `k` begins : the first one at its own buffer, every
other one where the last call of any handler stopped. -/
def cursor (s : Server) (k : ℕ) (first : Bool) : Option (ℕ × ℕ) :=
  if first then some (k, 0) else s.saved

/-- A turn of the loop of `createCommandPipe`. -/
def parse (s : Server) (k : ℕ) (h : Handler) (idx : ℕ) (pipe : List (Cmd ℕ)) (c : ℕ × ℕ) :
    Server :=
  let r := loopTurn (s.buff c.1) c.2
  let s := { s with buff := Function.update s.buff c.1 r.2.2, saved := some (c.1, r.2.1) }
  match r.1 with
  | none => s.goto k h (.executing idx pipe [])
  -- `pthread_exit`
  | some none => s.goto k h .ended
  | some (some (machine, off)) => s.goto k h (.parsing idx (pipe ++ [⟨machine, c.1, off⟩]) false)

/-- The command, with the text that is now where it points to. -/
def load (s : Server) (cmd : Cmd ℕ) : Command :=
  (cmd.machine, cstr (s.buff cmd.buf) cmd.off)

/-- The next part of `connectionHandler` for handler `k`. -/
def handlerStep (config : Config) (s : Server) (k : ℕ) (h : Handler) : Event → Option Server
  | .register _ =>
    if h.pc = .created then
      match registerClientConnection h.clientIp config s.active with
      | some idx => some ((s.setActive idx true).goto k h (.readingPort idx))
      | none => some (s.goto k h .ended)
    else none
  | .readPort _ read =>
    match h.pc, read with
    | .readingPort _, none => some (s.goto k h .ended)
    | .readingPort idx, some [] => some ((s.setActive idx false).goto k h .ended)
    | .readingPort idx, some bytes =>
      if bytes.length ≤ 10 then
        some { s.goto k h (.readingCommand idx) with
          ports := Function.update s.ports idx (atoi (cstr bytes 0)) }
      else none
    | _, _ => none
  | .readCommand _ read =>
    match h.pc, read with
    | .readingCommand idx, none | .readingCommand idx, some [] =>
      some ((s.setActive idx false).goto k h .ended)
    | .readingCommand idx, some bytes =>
      if bytes.length ≤ maxCommandSize then
        if cstr bytes 0 = ['n', 'o', 'd', 'e', 's'] then
          some ((s.fill k bytes).answer k h (nodesText config s.active) (.readingCommand idx))
        else some ((s.fill k bytes).goto k h (.parsing idx [] true))
      else none
    | _, _ => none
  | .parse _ =>
    match h.pc with
    | .parsing idx pipe first => (s.cursor k first).map fun c => s.parse k h idx pipe c
    | _ => none
  | .execute _ reply stray =>
    match h.pc with
    | .executing idx [] output => some (s.answer k h output (.readingCommand idx))
    | .executing idx (cmd :: cmds) _ =>
      match runCommand config s.active idx (s.load cmd) reply stray with
      | .ok output => some (s.goto k h (.executing idx cmds output))
      | .error text => some (s.goto k h (.executing idx [] text))
    | _ => none
  | _ => none

/-- One step of the server. -/
def step (config : Config) (s : Server) (e : Event) : Option Server :=
  if s.exited then none
  else
    match e with
    | .accept ip => some { s with handlers := s.handlers ++ [⟨ip, .created, []⟩] }
    | .exit => some { s with exited := true }
    | .register k | .readPort k _ | .readCommand k _ | .parse k | .execute k _ _ =>
      s.handlers[k]?.bind fun h => s.handlerStep config k h e

end Server

end NetProg.Cluster
