import NetProg.Cluster.Machines
import NetProg.Lib.History

/-!
# What the handlers do together

Without bytes and arrays, a handler is a program that looks at the table of connections and asks
machines to run commands (`Job`), and what is shared is a step function on such actions
(`Shared.apply`) : a machine runs the text of a command, without the spaces in front of it, on the
text that the command before it has put out.

`threads_refine` says that whatever the handlers do in whatever order is a history of these
programs and of what they share. With `run_parties_iff`, each handler runs the programs of its lines
as if it were alone, with the responses that it got, and the machines have run, once and in the
order of the log, what the handlers have asked for, and nothing else.
-/

namespace NetProg.Cluster

open Lib (CString own parties run_parties_map run_parties_iff)
open Lib.CString

variable {ω : Type*}

/-! ## What is shared -/

/-- What a command does on a machine. -/
def Os.act (os : Os ω) (w : ω) (addr : Address) (text input : List Char) : ω × List Char :=
  let command := text.dropWhile fun c => c == ' '
  if IsCd command then
    match os.chdir w addr (command.drop 3) with
    | some w => (w, [])
    | none => (w, "Error occurred while changing path to ".toList ++ command.drop 3)
  else
    let r := os.popen w addr command input
    (r.1, cstr (r.2.take maxOutputSize) 0)

/-- What an action does, if its response is the right one. -/
def Shared.respond (config : Config) (os : Os ω) (s : Shared ω) : Action → Option (Shared ω)
  | .register ip slot =>
    if registerClientConnection ip config s.active = slot then
      some (slot.elim s fun idx => s.setActive idx true)
    else none
  | .release idx => some (s.setActive idx false)
  | .setPort idx port => some (s.setPort idx port)
  | .look i seen => if s.active i = seen then some s else none
  | .ask _ _ _ .refused => some { s with exited := true }
  | .ask _ _ _ .writeError => some s
  | .ask _ _ _ (.readError false) => some s
  | .ask i text input (.readError true) =>
    some { s with world := (os.act s.world (s.address config i) text input).1 }
  | .ask i text input (.output out) =>
    let r := os.act s.world (s.address config i) text input
    if r.2 = out then some { s with world := r.1 } else none
  | .read _ | .write _ => some s

/-- The same, until the server has ended. -/
def Shared.apply (config : Config) (os : Os ω) (s : Shared ω) (a : Action) : Option (Shared ω) :=
  if s.exited then none else s.respond config os a

/-! ## What a handler does for a line -/

/-- A program of a handler : it ends with a text, looks whether a machine is connected, or asks one
to run a command. -/
inductive Job where
  | done (text : List Char)
  | look (i : ℕ) (k : Bool → Job)
  | ask (i : ℕ) (text input : List Char) (k : Reply → Job)

/-- Ask machine `i`, and go on with the output. An error is the end. -/
def askJob (text : List Char) (i : ℕ) (input : List Char) (k : List Char → Job) : Job :=
  .ask i text input fun reply =>
    match sendCommand text i reply with
    | .error msg => .done msg
    | .ok out => k out

/-- The machines that are connected. -/
def nodesJob (config : Config) : List ℕ → List Char → Job
  | [], res => .done res
  | i :: is, res =>
    .look i fun seen => nodesJob config is (if seen then res ++ nodeLine config i else res)

/-- The outputs of the machines that are connected, one behind the other. -/
def broadcastJob (text input : List Char) (k : List Char → Job) : List ℕ → List Char → Job
  | [], res => k res
  | i :: is, res =>
    .look i fun seen =>
      if seen then askJob text i input fun out => broadcastJob text input k is (res ++ out)
      else broadcastJob text input k is res

/-- Each command gets the output of the command before it. -/
def pipelineJob (config : Config) (idx : ℕ) : List Command → List Char → Job
  | [], input => .done input
  | cmd :: cmds, input =>
    if cmd.1 = 0 then
      broadcastJob cmd.2 input (pipelineJob config idx cmds) (List.range config.count) []
    else
      let machine := machineOf idx cmd
      if machine ≥ config.count then .done (invalidMachine machine)
      else
        .look machine.toNat fun seen =>
          if seen then askJob cmd.2 machine.toNat input (pipelineJob config idx cmds)
          else .done (notConnected machine)

/-- What a handler does for a line. `none` : the line ends it. -/
def lineJob (config : Config) (idx : ℕ) (line : List Char) : Option Job :=
  if line = ['n', 'o', 'd', 'e', 's'] then some (nodesJob config (List.range maxClientsAllowed) [])
  else (createCommandPipe line).map fun cmds => pipelineJob config idx cmds []

/-- A handler without bytes and arrays. -/
inductive Stage where
  | created (ip : List Char)
  | readingPort (idx : ℕ)
  | portRead (idx : ℕ) (port : ℤ)
  | readingCommand (idx : ℕ)
  | running (idx : ℕ) (job : Job)
  | closed (idx : ℕ)
  | ended

/-- A handler does an action. -/
def Stage.step (config : Config) : Stage → Action → Option Stage
  | .created ip, .register ip' slot =>
    if ip' = ip then some (slot.elim .ended .readingPort) else none
  | .readingPort _, .read none => some .ended
  | .readingPort idx, .read (some []) => some (.closed idx)
  | .readingPort idx, .read (some bytes) => some (.portRead idx (atoi (cstr bytes 0)))
  | .portRead idx port, .setPort idx' port' =>
    if idx' = idx ∧ port' = port then some (.readingCommand idx) else none
  | .readingCommand idx, .read none | .readingCommand idx, .read (some []) => some (.closed idx)
  | .readingCommand idx, .read (some bytes) =>
    some ((lineJob config idx (cstr bytes 0)).elim .ended (.running idx))
  | .running idx (.done text), .write text' =>
    if text' = text then some (.readingCommand idx) else none
  | .running idx (.look i k), .look i' seen => if i' = i then some (.running idx (k seen)) else none
  | .running idx (.ask i text input k), .ask i' text' input' outcome =>
    if i' = i ∧ text' = text ∧ input' = input then
      some (outcome.reply.elim .ended fun reply => .running idx (k reply))
    else none
  | .closed idx, .release idx' => if idx' = idx then some .ended else none
  | _, _ => none

/-! ## A handler and its program -/

/-- What is left to do of a job. -/
def Next.job (config : Config) (idx : ℕ) (text : List Char) (i : ℕ) (input : List Char) :
    Next → List Char → Job
  | .pipe cmds => pipelineJob config idx cmds
  | .cast cmds res => fun out =>
    broadcastJob text input (pipelineJob config idx cmds)
      (List.range' (i + 1) (config.count - (i + 1))) (res.chars ++ out)

/-- What a handler is, without bytes and arrays. -/
def Place.stage (config : Config) : Place → Stage
  | .created ip => .created ip
  | .readingPort idx => .readingPort idx
  | .readingCommand idx => .readingCommand idx
  | .listing idx i res =>
    .running idx (nodesJob config (List.range' i (maxClientsAllowed - i)) res.chars)
  | .piping idx cmds output => .running idx (pipelineJob config idx cmds output.chars)
  | .casting idx text cmds output i res =>
    .running idx (broadcastJob text output.chars (pipelineJob config idx cmds)
      (List.range' i (config.count - i)) res.chars)
  | .asking idx text i output next =>
    .running idx (askJob text i output.chars (next.job config idx text i output.chars))
  | .ended => .ended

/-! ## A machine and its commands -/

theorem three_le_of_isCd {cmd : List Char} (h : IsCd cmd) : 3 ≤ cmd.length := by
  have hlen := congrArg List.length h
  rw [List.length_take] at hlen
  simp at hlen
  omega

/-- The client finds the directory. -/
theorem executeCmd_cd {cmd input : List Char} (hcmd : nul ∉ cmd)
    (hcd : IsCd (cmd.dropWhile fun c => c == ' ')) :
    executeCmd (message cmd input ++ [nul]) =
      .chdir ((cmd.dropWhile fun c => c == ' ').drop 3) := by
  have hshort : nul ∉ cmd.dropWhile fun c => c == ' ' :=
    fun hmem => hcmd ((List.dropWhile_sublist _).subset hmem)
  have hbuff : message cmd input ++ [nul] = cmd ++ nul :: (input ++ nul :: [nul]) := by
    simp [message]
  rw [hbuff, executeCmd, dropWhile_message]
  generalize (cmd.dropWhile fun c => c == ' ') = cmd' at hcd hshort
  have hlen := three_le_of_isCd hcd
  have happend : IsCd (cmd' ++ nul :: (input ++ nul :: [nul])) := by
    rwa [IsCd, List.take_append_of_le_length hlen]
  have hpath : cstr (cmd' ++ nul :: (input ++ nul :: [nul])) 3 = cmd'.drop 3 := by
    rw [cstr, List.drop_append_of_le_length hlen,
      Lib.takeWhile_of_notMem fun hmem => hshort (List.mem_of_mem_drop hmem)]
  simp only [if_pos happend, hpath]

/-- A machine runs the command that it is sent, on the input that it is sent. -/
theorem serve_message {os : Os ω} {w : ω} {addr : Address} {text input : List Char}
    (htext : nul ∉ text) (hinput : nul ∉ input) {r : ω × List Char}
    (h : os.serve w addr (message text input) = some r) : r = os.act w addr text input := by
  obtain ⟨buff, hbuff, h⟩ := Option.bind_eq_some_iff.1 h
  obtain rfl : message text input ++ [nul] = buff := by
    unfold receive at hbuff
    split at hbuff
    · exact Option.some.inj hbuff
    · cases hbuff
  unfold Os.act
  by_cases hcd : IsCd (text.dropWhile fun c => c == ' ')
  · rw [executeCmd_cd htext hcd] at h
    simp only [if_pos hcd]
    cases hdir : os.chdir w addr ((text.dropWhile fun c => c == ' ').drop 3) with
    | none =>
      simp only [hdir] at h
      obtain ⟨msg, hmsg, rfl⟩ := Option.map_eq_some_iff.1 h
      rw [chars_of_strcpy hmsg]
    | some w' =>
      simp only [hdir] at h
      exact (Option.some.inj h).symm
  · rw [executeCmd_message htext hinput hcd] at h
    simp only [if_neg hcd]
    exact (Option.some.inj h).symm

theorem nul_notMem_cstr (s : List Char) (i : ℕ) : nul ∉ cstr s i :=
  fun hmem => by simpa using List.mem_takeWhile_imp hmem

theorem nul_notMem_act (os : Os ω) (w : ω) (addr : Address) {text : List Char}
    (htext : nul ∉ text) (input : List Char) : nul ∉ (os.act w addr text input).2 := by
  have hpath : nul ∉ (text.dropWhile fun c => c == ' ').drop 3 := fun hmem =>
    htext ((List.dropWhile_sublist _).subset (List.mem_of_mem_drop hmem))
  unfold Os.act
  simp only
  split
  · split
    · exact List.not_mem_nil
    · exact fun hmem => (List.mem_append.1 hmem).elim (by decide) hpath
  · exact nul_notMem_cstr _ _

theorem length_serve_le {os : Os ω} {w : ω} {addr : Address} {read : List Char} {r : ω × List Char}
    (h : os.serve w addr read = some r) : r.2.length ≤ maxOutputSize := by
  obtain ⟨buff, -, h⟩ := Option.bind_eq_some_iff.1 h
  split at h
  · split at h
    · obtain rfl := Option.some.inj h
      exact Nat.zero_le _
    · obtain ⟨msg, -, rfl⟩ := Option.map_eq_some_iff.1 h
      exact Nat.le_of_lt_succ msg.length_lt
  · obtain rfl := Option.some.inj h
    exact Nat.le_of_lt_succ (readOutput _).length_lt

/-! ## What a handler has to send -/

/-- The message has room in the arrays, and no zero byte in its parts. -/
structure Sendable (text input : List Char) : Prop where
  nul_text : nul ∉ text
  nul_input : nul ∉ input
  length_le : text.length + min input.length 2 ≤ maxCommandSize

/-- A command that is not the first one of its line. -/
structure Later (cmd : Command) : Prop where
  nul_text : nul ∉ cmd.2
  length_le : cmd.2.length + 2 ≤ maxCommandSize
  machine : -2 ^ 31 ≤ cmd.1 ∧ cmd.1 < 2 ^ 31

theorem Later.sendable {cmd : Command} (h : Later cmd) {input : List Char} (hinput : nul ∉ input) :
    Sendable cmd.2 input :=
  ⟨h.nul_text, hinput, (Nat.add_le_add_left (min_le_right _ _) _).trans h.length_le⟩

/-- The commands can be sent, the first one with the input. -/
def PipeSound : List Command → List Char → Prop
  | [], _ => True
  | cmd :: cmds, input =>
    Sendable cmd.2 input ∧ (-2 ^ 31 ≤ cmd.1 ∧ cmd.1 < 2 ^ 31) ∧ ∀ cmd ∈ cmds, Later cmd

theorem pipeSound_of_later {cmds : List Command} (h : ∀ cmd ∈ cmds, Later cmd) {input : List Char}
    (hinput : nul ∉ input) : PipeSound cmds input := by
  cases cmds with
  | nil => trivial
  | cons cmd cmds =>
    obtain ⟨hcmd, hcmds⟩ := List.forall_mem_cons.1 h
    exact ⟨hcmd.sendable hinput, hcmd.machine, hcmds⟩

/-- What is left to do with an output can be sent. -/
def Next.Sound : Next → Prop
  | .pipe cmds => ∀ cmd ∈ cmds, Later cmd
  | .cast cmds res => (∀ cmd ∈ cmds, Later cmd) ∧ nul ∉ res.chars

/-- A handler holds a slot of a machine, and what it has to send can be sent. -/
def Place.Sound (config : Config) : Place → Prop
  | .created _ | .ended => True
  | .readingPort idx | .readingCommand idx | .listing idx _ _ => idx < config.count
  | .piping idx cmds output => idx < config.count ∧ PipeSound cmds output.chars
  | .casting idx text cmds output _ res =>
    idx < config.count ∧ Sendable text output.chars ∧ (∀ cmd ∈ cmds, Later cmd) ∧ nul ∉ res.chars
  | .asking idx text i output next =>
    idx < config.count ∧ Sendable text output.chars ∧ i < config.count ∧ next.Sound

theorem toInt32_bounds (n : ℤ) : -2 ^ 31 ≤ toInt32 n ∧ toInt32 n < 2 ^ 31 :=
  ⟨BitVec.le_toInt _, BitVec.toInt_lt⟩

theorem atoi_bounds (s : List Char) : -2 ^ 31 ≤ atoi s ∧ atoi s < 2 ^ 31 := by
  unfold atoi
  split <;> exact toInt32_bounds _

/-- The machine of a command is an `int`. -/
theorem machine_bounds {tok : List Char} {cmd : Command} (h : createCommand tok = some cmd) :
    -2 ^ 31 ≤ cmd.1 ∧ cmd.1 < 2 ^ 31 := by
  obtain ⟨p, hp, rfl⟩ := Option.map_eq_some_iff.1 h
  have hsmall : ∀ q : Parsed, q = localCommand → -2 ^ 31 ≤ q.machine ∧ q.machine < 2 ^ 31 := by
    rintro q rfl
    decide
  unfold parseToken at hp
  split at hp
  · exact hsmall _ (Option.some.inj hp).symm
  · simp only at hp
    split_ifs at hp with hname hn hstar hzero
    · obtain rfl := Option.some.inj hp
      norm_num
    · obtain rfl := Option.some.inj hp
      exact atoi_bounds _
    · exact hsmall _ (Option.some.inj hp).symm

/-- What a handler has to send for a line can be sent. -/
theorem sound_lineRead {config : Config} {idx : ℕ} (hidx : idx < config.count) {bytes : List Char}
    (hbytes : bytes.length ≤ maxCommandSize) : (lineRead idx (cstr bytes 0)).Sound config := by
  have hline : (cstr bytes 0).length ≤ maxCommandSize :=
    (List.takeWhile_sublist _).length_le.trans hbytes
  unfold lineRead
  split
  · exact hidx
  · cases hcmds : createCommandPipe (cstr bytes 0) with
    | none => trivial
    | some cmds =>
      have htext : ∀ cmd ∈ cmds, nul ∉ cmd.2 := fun cmd hcmd hmem =>
        nul_notMem_cstr _ _ ((text_sublist hcmds hcmd).subset hmem)
      have hmachine : ∀ cmd ∈ cmds, -2 ^ 31 ≤ cmd.1 ∧ cmd.1 < 2 ^ 31 := fun cmd hcmd => by
        obtain ⟨tok, -, htok⟩ := exists_token_of_mem hcmds hcmd
        exact machine_bounds htok
      refine ⟨hidx, ?_⟩
      cases cmds with
      | nil => trivial
      | cons cmd cmds =>
        have hmem : cmd ∈ cmd :: cmds := List.mem_cons_self
        refine ⟨⟨htext _ hmem, List.not_mem_nil, ?_⟩, hmachine _ hmem, fun c hc => ?_⟩
        · simpa using (length_text_le hcmds hmem).trans hline
        · obtain ⟨k, hk⟩ := List.mem_iff_getElem?.1 hc
          have hmem' := List.mem_cons_of_mem cmd hc
          exact ⟨htext _ hmem', (length_later_text (k := k) hcmds hk).trans hline,
            hmachine _ hmem'⟩

/-! ## A step of a handler -/

section Step

variable {config : Config} {os : Os ω} {s : Shared ω} {r : Turn ω}

/-- What the network makes of a message is what the machine does with the command. -/
theorem respond_of_request {net : Net} {i : ℕ} {text input : List Char} (htext : nul ∉ text)
    (hinput : nul ∉ input) {q : ω × Outcome}
    (h : os.request net s.world (s.address config i) (message text input) = some q) :
    (q.2 = .refused ∧ q.1 = s.world) ∨
      (q.2 ≠ .refused ∧ s.respond config os (.ask i text input q.2) = some { s with world := q.1 } ∧
        ∀ out, q.2 = .output out → nul ∉ out ∧ out.length ≤ maxOutputSize) := by
  cases net with
  | refused =>
    obtain rfl := Option.some.inj h
    exact .inl ⟨rfl, rfl⟩
  | writeError =>
    obtain rfl := Option.some.inj h
    exact .inr ⟨nofun, rfl, nofun⟩
  | readError ran =>
    cases ran with
    | false =>
      obtain rfl := Option.some.inj h
      exact .inr ⟨nofun, rfl, nofun⟩
    | true =>
      obtain ⟨p, hp, rfl⟩ := Option.map_eq_some_iff.1 h
      obtain rfl := serve_message htext hinput hp
      exact .inr ⟨nofun, rfl, nofun⟩
  | delivered =>
    obtain ⟨p, hp, rfl⟩ := Option.map_eq_some_iff.1 h
    have hlen := length_serve_le hp
    obtain rfl := serve_message htext hinput hp
    refine .inr ⟨nofun, by simp [Shared.respond], fun out hout => ?_⟩
    obtain rfl := Outcome.output.inj hout
    exact ⟨nul_notMem_act _ _ _ htext _, hlen⟩

/-- What becomes of a message. -/
theorem askMachine_cases {net : Net} {idx i : ℕ} {text : List Char} {output : Output} {next : Next}
    (hsend : Sendable text output.chars)
    (h : askMachine config os net s idx text i output next = some r) :
    ∃ outcome, r.actions = [.ask i text output.chars outcome] ∧
      s.respond config os (.ask i text output.chars outcome) = some r.shared ∧
      ((outcome.reply = none ∧ r.place = .ended) ∨
        (∃ (reply : Reply) (msg : Output), outcome.reply = some reply ∧
          sendCommand text i reply = .error msg.chars ∧ r.place = .piping idx [] msg) ∨
        ∃ out : Output, outcome.reply = some (.output out.chars) ∧ nul ∉ out.chars ∧
          next.place idx text i output out = some r.place) := by
  obtain ⟨input, hinput, h⟩ := Option.bind_eq_some_iff.1 h
  rw [eq_message_of_fillInput hinput] at h
  obtain ⟨q, hq, h⟩ := Option.bind_eq_some_iff.1 h
  obtain ⟨w, outcome⟩ := q
  have hrespond := respond_of_request hsend.nul_text hsend.nul_input hq
  simp only at h hrespond
  rcases hrespond with ⟨rfl, rfl⟩ | ⟨hne, hrespond, hout⟩
  · obtain rfl := Option.some.inj h
    exact ⟨_, rfl, rfl, .inl ⟨rfl, rfl⟩⟩
  · cases outcome with
    | refused => exact absurd rfl hne
    | writeError =>
      obtain ⟨msg, hmsg, rfl⟩ := Option.map_eq_some_iff.1 h
      refine ⟨_, rfl, hrespond, .inr (.inl ⟨_, msg, rfl, ?_, rfl⟩)⟩
      rw [chars_of_strcpy hmsg]
      rfl
    | readError ran =>
      obtain ⟨msg, hmsg, rfl⟩ := Option.map_eq_some_iff.1 h
      refine ⟨_, rfl, hrespond, .inr (.inl ⟨_, msg, rfl, ?_, rfl⟩)⟩
      rw [chars_of_strcpy hmsg]
      rfl
    | output bytes =>
      obtain ⟨hnul, hlen⟩ := hout bytes rfl
      obtain ⟨place, hplace, rfl⟩ := Option.map_eq_some_iff.1 h
      rw [readOutput_of_length_le hlen hnul] at hplace
      exact ⟨_, rfl, hrespond, .inr (.inr ⟨_, rfl, hnul, hplace⟩)⟩

theorem sound_place {idx i : ℕ} {text : List Char} {output out : Output} {next : Next}
    (hidx : idx < config.count) (hsend : Sendable text output.chars) (hnext : next.Sound)
    (hout : nul ∉ out.chars) {p : Place} (h : next.place idx text i output out = some p) :
    p.Sound config := by
  cases next with
  | pipe cmds =>
    obtain rfl := Option.some.inj h
    exact ⟨hidx, pipeSound_of_later hnext hout⟩
  | cast cmds res =>
    obtain ⟨res', hres, rfl⟩ := Option.map_eq_some_iff.1 h
    refine ⟨hidx, hsend, hnext.1, ?_⟩
    rw [chars_of_strcpy hres]
    exact fun hmem => (List.mem_append.1 hmem).elim hnext.2 hout

/-- What a handler has to send can be sent. -/
theorem sound_step {p : Place} {inp : Input} (hp : p.Sound config)
    (h : p.step config os s inp = some r) : r.place.Sound config := by
  cases p with
  | created ip =>
    cases inp with
    | read bytes => cases h
    | turn net =>
      simp only [Place.step] at h
      cases hreg : registerClientConnection ip config s.active with
      | none =>
        rw [hreg] at h
        obtain rfl := Option.some.inj h
        trivial
      | some idx =>
        rw [hreg] at h
        obtain rfl := Option.some.inj h
        have hidx := List.mem_range.1 (List.mem_of_find?_eq_some hreg)
        exact hidx.trans_le (min_le_right _ _)
  | readingPort idx =>
    match inp, h with
    | .read none, h | .read (some []), h =>
      obtain rfl := Option.some.inj h
      trivial
    | .read (some (c :: bytes)), h =>
      obtain ⟨port, -, rfl⟩ := Option.map_eq_some_iff.1 h
      exact hp
  | readingCommand idx =>
    match inp, h with
    | .read none, h | .read (some []), h =>
      obtain rfl := Option.some.inj h
      trivial
    | .read (some (c :: bytes)), h =>
      simp only [Place.step] at h
      split_ifs at h with hlen
      obtain rfl := Option.some.inj h
      exact sound_lineRead hp hlen.1
  | listing idx i res =>
    cases inp with
    | read bytes => cases h
    | turn net =>
      simp only [Place.step] at h
      split_ifs at h with hi hactive
      · obtain ⟨res', -, rfl⟩ := Option.map_eq_some_iff.1 h
        exact hp
      · obtain rfl := Option.some.inj h
        exact hp
      · obtain rfl := Option.some.inj h
        exact hp
  | piping idx cmds output =>
    cases inp with
    | read bytes => cases cmds <;> cases h
    | turn net =>
      cases cmds with
      | nil =>
        obtain rfl := Option.some.inj h
        exact hp.1
      | cons cmd cmds =>
        obtain ⟨hidx, hsend, hmachine, hlater⟩ := hp
        simp only [Place.step] at h
        split_ifs at h with hcast hcount hneg hactive
        · obtain rfl := Option.some.inj h
          exact ⟨hidx, hsend, hlater, List.not_mem_nil⟩
        · obtain ⟨msg, -, rfl⟩ := Option.map_eq_some_iff.1 h
          exact ⟨hidx, trivial⟩
        · obtain ⟨msg, -, rfl⟩ := Option.map_eq_some_iff.1 h
          exact ⟨hidx, trivial⟩
        · obtain rfl := Option.some.inj h
          exact ⟨hidx, hsend, by omega, hlater⟩
  | casting idx text cmds output i res =>
    cases inp with
    | read bytes => cases h
    | turn net =>
      obtain ⟨hidx, hsend, hlater, hres⟩ := hp
      simp only [Place.step] at h
      split_ifs at h with hi hactive
      · obtain rfl := Option.some.inj h
        exact ⟨hidx, hsend, hlater, hres⟩
      · obtain rfl := Option.some.inj h
        exact ⟨hidx, hsend, hi, hlater, hres⟩
      · obtain rfl := Option.some.inj h
        exact ⟨hidx, pipeSound_of_later hlater hres⟩
  | asking idx text i output next =>
    cases inp with
    | read bytes => cases h
    | turn net =>
      obtain ⟨hidx, hsend, hi, hnext⟩ := hp
      obtain ⟨outcome, -, -, ⟨-, hplace⟩ | ⟨reply, msg, -, -, hplace⟩ | ⟨out, -, hnul, hplace⟩⟩ :=
        askMachine_cases hsend h
      · rw [hplace]
        trivial
      · rw [hplace]
        exact ⟨hidx, trivial⟩
      · exact sound_place hidx hsend hnext hnul hplace
  | ended => cases inp <;> cases h

theorem range'_sub {i n : ℕ} (h : i < n) :
    List.range' i (n - i) = i :: List.range' (i + 1) (n - (i + 1)) := by
  rw [show n - i = n - (i + 1) + 1 by omega, List.range'_succ]

theorem range'_sub_of_le {i n : ℕ} (h : n ≤ i) : List.range' i (n - i) = [] := by
  rw [Nat.sub_eq_zero_of_le h, List.range'_zero]

/-- A look at a machine. -/
theorem apply_look (hs : s.exited = false) {i : ℕ} {seen : Bool} (hseen : s.active i = seen) :
    run (Shared.apply config os) s [.look i seen] = some s := by
  rw [run_cons, Shared.apply, hs, Shared.respond, if_pos hseen]
  rfl

/-- The program goes on with the response. -/
theorem stage_place {idx i : ℕ} {text : List Char} {output out : Output} {next : Next} {p : Place}
    (h : next.place idx text i output out = some p) :
    p.stage config = .running idx (next.job config idx text i output.chars out.chars) := by
  cases next with
  | pipe cmds =>
    obtain rfl := Option.some.inj h
    rfl
  | cast cmds res =>
    obtain ⟨res', hres, rfl⟩ := Option.map_eq_some_iff.1 h
    rw [Place.stage, chars_of_strcpy hres]
    rfl

/-- An exchange with a machine is one action. -/
theorem refine_ask {net : Net} {idx i : ℕ} {text : List Char} {output : Output} {next : Next}
    (hs : s.exited = false) (hsend : Sendable text output.chars)
    (h : askMachine config os net s idx text i output next = some r) :
    run (Stage.step config) ((Place.asking idx text i output next).stage config) r.actions =
        some (r.place.stage config) ∧
      run (Shared.apply config os) s r.actions = some r.shared := by
  obtain ⟨outcome, hactions, hrespond, hplace⟩ := askMachine_cases hsend h
  have happly : Shared.apply config os s (.ask i text output.chars outcome) = some r.shared := by
    rwa [Shared.apply, hs]
  have hstep : Stage.step config ((Place.asking idx text i output next).stage config)
      (.ask i text output.chars outcome) = some (r.place.stage config) := by
    rw [Place.stage, askJob, Stage.step, if_pos ⟨rfl, rfl, rfl⟩]
    rcases hplace with ⟨hreply, hplace⟩ | ⟨reply, msg, hreply, hmsg, hplace⟩ |
      ⟨out, hreply, -, hplace⟩
    · rw [hreply, hplace]
      rfl
    · rw [hreply, hplace, Option.elim_some, hmsg]
      rfl
    · rw [hreply, stage_place hplace]
      rfl
  rw [hactions]
  exact ⟨by rw [run_cons, hstep]; rfl, by rw [run_cons, happly]; rfl⟩

theorem chars_of_readString {cap : ℕ} {read : List Char} {dst : CString Char cap}
    (h : readString cap read = some dst) : dst.chars = cstr read 0 := by
  unfold readString at h
  split at h
  · obtain rfl := Option.some.inj h
    rw [cstr, List.drop_zero]
    refine congrArg (fun p => List.takeWhile p read) (funext fun c => ?_)
    rw [Bool.eq_iff_iff]
    simp
  · cases h

theorem stage_lineRead (idx : ℕ) (line : List Char) :
    (lineRead idx line).stage config = (lineJob config idx line).elim .ended (.running idx) := by
  unfold lineRead lineJob
  split
  · rw [Place.stage, List.range_eq_range']
    rfl
  · cases createCommandPipe line <;> rfl

/-- What a handler does in a step are actions of its program, and what is shared responds to
them as the code does. -/
theorem refine_step {p : Place} {inp : Input} (hs : s.exited = false) (hp : p.Sound config)
    (h : p.step config os s inp = some r) :
    run (Stage.step config) (p.stage config) r.actions = some (r.place.stage config) ∧
      run (Shared.apply config os) s r.actions = some r.shared := by
  cases p with
  | created ip =>
    cases inp with
    | read bytes => cases h
    | turn net =>
      simp only [Place.step] at h
      cases hreg : registerClientConnection ip config s.active with
      | none =>
        rw [hreg] at h
        obtain rfl := Option.some.inj h
        refine ⟨by simp [run_cons, Place.stage, Stage.step], ?_⟩
        simp [run_cons, Shared.apply, Shared.respond, hs, hreg]
      | some idx =>
        rw [hreg] at h
        obtain rfl := Option.some.inj h
        refine ⟨by simp [run_cons, Place.stage, Stage.step], ?_⟩
        simp [run_cons, Shared.apply, Shared.respond, hs, hreg]
  | readingPort idx =>
    match inp, h with
    | .read none, h =>
      obtain rfl := Option.some.inj h
      exact ⟨rfl, by simp [run_cons, Shared.apply, Shared.respond, hs]⟩
    | .read (some []), h =>
      obtain rfl := Option.some.inj h
      refine ⟨by simp [run_cons, Place.stage, Stage.step], ?_⟩
      simp [run_cons, Shared.apply, Shared.respond, hs]
    | .read (some (c :: bytes)), h =>
      obtain ⟨port, hport, rfl⟩ := Option.map_eq_some_iff.1 h
      have hchars := chars_of_readString hport
      refine ⟨by simp [run_cons, Place.stage, Stage.step, hchars], ?_⟩
      simp [run_cons, Shared.apply, Shared.respond, hs, Shared.setPort]
  | readingCommand idx =>
    match inp, h with
    | .read none, h | .read (some []), h =>
      obtain rfl := Option.some.inj h
      refine ⟨by simp [run_cons, Place.stage, Stage.step], ?_⟩
      simp [run_cons, Shared.apply, Shared.respond, hs]
    | .read (some (c :: bytes)), h =>
      simp only [Place.step] at h
      split_ifs at h with hlen
      obtain rfl := Option.some.inj h
      refine ⟨?_, by simp [run_cons, Shared.apply, Shared.respond, hs]⟩
      rw [stage_lineRead]
      rfl
  | listing idx i res =>
    cases inp with
    | read bytes => cases h
    | turn net =>
      simp only [Place.step] at h
      split_ifs at h with hi hactive
      · obtain ⟨res', hres, rfl⟩ := Option.map_eq_some_iff.1 h
        refine ⟨?_, apply_look hs hactive⟩
        simp [run_cons, Place.stage, range'_sub hi, nodesJob, Stage.step, chars_of_strcpy hres]
      · obtain rfl := Option.some.inj h
        refine ⟨?_, apply_look hs (Bool.eq_false_iff.2 hactive)⟩
        simp [run_cons, Place.stage, range'_sub hi, nodesJob, Stage.step]
      · obtain rfl := Option.some.inj h
        refine ⟨?_, by simp [run_cons, Shared.apply, Shared.respond, hs]⟩
        simp [run_cons, Place.stage, range'_sub_of_le (not_lt.1 hi), nodesJob, Stage.step]
  | piping idx cmds output =>
    cases inp with
    | read bytes => cases cmds <;> cases h
    | turn net =>
      cases cmds with
      | nil =>
        obtain rfl := Option.some.inj h
        refine ⟨by simp [run_cons, Place.stage, pipelineJob, Stage.step], ?_⟩
        simp [run_cons, Shared.apply, Shared.respond, hs]
      | cons cmd cmds =>
        simp only [Place.step] at h
        split_ifs at h with hcast hcount hneg hactive
        · obtain rfl := Option.some.inj h
          refine ⟨?_, rfl⟩
          simp [Place.stage, pipelineJob, hcast, List.range_eq_range']
        · obtain ⟨msg, hmsg, rfl⟩ := Option.map_eq_some_iff.1 h
          refine ⟨?_, rfl⟩
          simp [Place.stage, pipelineJob, hcast, hcount, chars_of_strcpy hmsg]
        · obtain ⟨msg, hmsg, rfl⟩ := Option.map_eq_some_iff.1 h
          refine ⟨?_, apply_look hs hactive⟩
          simp [run_cons, Place.stage, pipelineJob, hcast, hcount, Stage.step, chars_of_strcpy hmsg]
        · obtain rfl := Option.some.inj h
          refine ⟨?_, apply_look hs (Bool.eq_true_of_not_eq_false hactive)⟩
          simp [run_cons, Place.stage, pipelineJob, hcast, hcount, Stage.step, Next.job]
  | casting idx text cmds output i res =>
    cases inp with
    | read bytes => cases h
    | turn net =>
      simp only [Place.step] at h
      split_ifs at h with hi hactive
      · obtain rfl := Option.some.inj h
        refine ⟨?_, apply_look hs hactive⟩
        simp [run_cons, Place.stage, range'_sub hi, broadcastJob, Stage.step]
      · obtain rfl := Option.some.inj h
        refine ⟨?_, apply_look hs (Bool.eq_true_of_not_eq_false hactive)⟩
        simp [run_cons, Place.stage, range'_sub hi, broadcastJob, Stage.step, Next.job]
      · obtain rfl := Option.some.inj h
        refine ⟨?_, rfl⟩
        simp [Place.stage, range'_sub_of_le (not_lt.1 hi), broadcastJob]
  | asking idx text i output next =>
    cases inp with
    | read bytes => cases h
    | turn net => exact refine_ask hs hp.2.1 h
  | ended => cases inp <;> cases h

end Step

/-! ## All handlers -/

namespace Threads

variable {ι : Type*} [DecidableEq ι] {config : Config} {os : Os ω}

/-- What every step keeps : what the handlers have to send can be sent, and the log is a history
of their programs. -/
structure Explained (config : Config) (os : Os ω) (ips : ι → List Char) (w : ω)
    (s : Threads ι ω) : Prop where
  sound : ∀ t, (s.places t).Sound config
  history : run (parties (Stage.step config) (Shared.apply config os))
    (fun t => .created (ips t), (init ips w).shared) s.log =
      some (fun t => (s.places t).stage config, s.shared)

theorem explained_init (ips : ι → List Char) (w : ω) : Explained config os ips w (init ips w) :=
  ⟨fun _ => trivial, rfl⟩

theorem step_eq_some {s s' : Threads ι ω} {l : ι × Input} (h : step config os s l = some s') :
    s.shared.exited = false ∧ ∃ r, (s.places l.1).step config os s.shared l.2 = some r ∧
      s' = ⟨Function.update s.places l.1 r.place, r.shared,
        s.log ++ r.actions.map fun a => (l.1, a)⟩ := by
  unfold step at h
  split_ifs at h with hs
  obtain ⟨r, hr, rfl⟩ := Option.map_eq_some_iff.1 h
  exact ⟨Bool.eq_false_iff.2 hs, r, hr, rfl⟩

theorem Explained.step {ips : ι → List Char} {w : ω} {s s' : Threads ι ω} {l : ι × Input}
    (h : Explained config os ips w s) (hstep : step config os s l = some s') :
    Explained config os ips w s' := by
  obtain ⟨hs, r, hr, rfl⟩ := step_eq_some hstep
  obtain ⟨hparty, hshared⟩ := refine_step hs (h.sound l.1) hr
  refine ⟨fun u => ?_, ?_⟩
  · rcases eq_or_ne u l.1 with rfl | hne
    · simpa using sound_step (h.sound l.1) hr
    · simpa [hne] using h.sound u
  · have hplaces : (fun u => (Function.update s.places l.1 r.place u).stage config) =
        Function.update (fun u => (s.places u).stage config) l.1 (r.place.stage config) :=
      Function.comp_update (Place.stage config) s.places l.1 r.place
    have hparties : run (parties (Stage.step config) (Shared.apply config os))
        (fun u => (s.places u).stage config, s.shared) (r.actions.map fun a => (l.1, a)) =
          some (Function.update (fun u => (s.places u).stage config) l.1 (r.place.stage config),
            r.shared) := run_parties_map hparty hshared
    rw [run_append, h.history, Option.bind_some, hparties, hplaces]

theorem explained_run {ips : ι → List Char} {w : ω} {ls : List (ι × Input)} {s : Threads ι ω}
    (h : run (step config os) (init ips w) ls = some s) : Explained config os ips w s :=
  run_invariant_of_step (fun _ _ _ hs hstep => hs.step hstep) (explained_init ips w) h

/-- Whatever the handlers do in whatever order, and whatever the network and the machines do, each
handler runs the programs of its lines with the responses that it got, and the table and the
machines have responded to all actions one after the other. -/
theorem threads_refine (config : Config) (os : Os ω) (ips : ι → List Char) (w : ω)
    {ls : List (ι × Input)} {s : Threads ι ω}
    (h : run (step config os) (init ips w) ls = some s) :
    (∀ t, run (Stage.step config) (.created (ips t)) (own t s.log) =
        some ((s.places t).stage config)) ∧
      run (Shared.apply config os) (init ips w).shared (s.log.map Prod.snd) = some s.shared :=
  run_parties_iff.1 (explained_run h).history

/-- Machines that answer every command with a word. -/
def wordOs : Os Unit where
  chdir _ _ _ := none
  popen _ _ _ _ := ((), ['o', 'k'])

/-- A client connects and sends a line for all machines. -/
def broadcastLine : List (Unit × Input) :=
  [((), .turn .delivered), ((), .read (some ['8', '0'])), ((), .read (some "n*.ls".toList))]

/-- The steps for its answer, and the next line. -/
def broadcastAnswer : List (Unit × Input) :=
  List.replicate 6 ((), .turn .delivered) ++ [((), .read (some "nodes".toList))]

/-- `threads_refine` on a broadcast to two machines of which one is connected. -/
theorem threads_refine_broadcast : ∃ s,
    run (step twoMachines wordOs) (init (fun _ => ['1']) ()) (broadcastLine ++ broadcastAnswer) =
        some s ∧
      (∀ t, run (Stage.step twoMachines) (.created ['1']) (own t s.log) =
          some ((s.places t).stage twoMachines)) ∧
        run (Shared.apply twoMachines wordOs) (init (fun _ : Unit => ['1']) ()).shared
          (s.log.map Prod.snd) = some s.shared := by
  have hrun : (run (step twoMachines wordOs) (init (fun _ => ['1']) ())
      (broadcastLine ++ broadcastAnswer)).isSome = true := by decide
  obtain ⟨s, hs⟩ := Option.isSome_iff_exists.1 hrun
  exact ⟨s, hs, threads_refine twoMachines wordOs (fun _ => ['1']) () hs⟩

end Threads

end NetProg.Cluster
