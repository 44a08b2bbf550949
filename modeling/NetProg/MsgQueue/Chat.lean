import NetProg.Lib.TypedQueue
import NetProg.MsgQueue.Faults

/-!
# Messages on their way

There is a queue of the server and a queue for each user. A process puts a message on the
server queue with the type of the thread that handles it. The server puts it back with the
type `cid + 5000` of a receiver. A router thread of the receiver takes it, drops it if it has
expired, and puts it on the queue of its user with the type of the conversation, `gid + 5000`
or `cid + 10000`, from which a loop prints it. A sender puts a message to a client on its own
queue as well.

A step is one system call on a queue with what its caller does up to the next one, so a
thread can hold messages that it has still to put on a queue (`hands`). That `msgsnd` fails is
a step of its own (`fail`). The loop of `send_group_message` sends to one member in a step.
Processes make their calls in any order. That a process gets the answer to its own query is
not modelled here : `dst` of a message is any number that a query can return, and a loop reads
the messages of any group or client.

All queues are one list of entries, the oldest first. An entry has the name of the queue in
the code, and `Queues` has what `msgget` returns for the names. Its key is made from the path
of a file, and is -1 for every path without a file, so nothing says that two names are two
queues.

The server handles a message as in `NetProg.MsgQueue.Server`, and ends at a fault.
-/

namespace NetProg.MsgQueue

/-! ## Entries of the queues -/

/-- `QUERY_REQUEST`. -/
def queryRequestType : ℤ :=
  5

/-- `QUERY_RESPONSE`. -/
def queryResponseType : ℤ :=
  6

/-- `CONTROL`. -/
def controlType : ℤ :=
  7

/-- `CONTROL_RESPONSE`. -/
def controlResponseType : ℤ :=
  8

/-- What is put on a queue. -/
inductive Item where
  | chat (msg : Message)
  | query (query : QueryRequest)
  | control (cmsg : ControlMessage)
  | queryResponse (qres : QueryResponse)
  | controlResponse (cres : ControlResponse)
deriving DecidableEq

/-- `mtype`. -/
def Item.mtype : Item → ℤ
  | .chat msg => msg.mtype
  | .query _ => queryRequestType
  | .control _ => controlType
  | .queryResponse _ => queryResponseType
  | .controlResponse _ => controlResponseType

/-- A queue as the code names it : `server_queue`, `client_queue` in a process of a user, and
`clt->queue` in the server. -/
inductive Queue where
  | server
  | client (uid : ℤ)
  | clt (queue : ℤ)
deriving DecidableEq

/-- What `msgget` returns for `server_queue`, and for `client_queue` of each user. A process
for which it fails ends when it registers. -/
structure Queues where
  server : ℕ
  client : ℤ → ℕ

/-- The queue that goes by a name. -/
def Queues.msqid (queues : Queues) : Queue → ℤ
  | .server => queues.server
  | .client uid => queues.client uid
  | .clt queue => queue

/-- A message on a queue, or on its way there. -/
abbrev Entry :=
  Queue × Item

/-- What `msgrcv` goes by. -/
def Queues.key (queues : Queues) (e : Entry) : ℤ × ℤ :=
  (queues.msqid e.1, e.2.mtype)

/-! ## State -/

/-- The user ids that leave room for the types. -/
def IsUid (n : ℤ) : Prop :=
  0 ≤ n ∧ n ≤ 2 ^ 31 - 10001

instance (n : ℤ) : Decidable (IsUid n) :=
  inferInstanceAs (Decidable (_ ∧ _))

/-- The threads of the server, and the main and router threads of process `pid` of a user. -/
inductive Thread where
  | groupSend
  | clientSend
  | queries
  | control
  | main (uid : ℤ) (pid : ℕ)
  | router (uid : ℤ) (pid : ℕ)
deriving DecidableEq

/-- The thread is one of the server. -/
def Thread.isServer : Thread → Bool
  | .groupSend | .clientSend | .queries | .control => true
  | .main _ _ | .router _ _ => false

/-- The loop of `send_group_message` : the group, the message, the next member, and
`num_clients`. -/
structure Forward where
  grp : ℕ
  msg : Message
  i : ℕ
  numClients : ℤ

/-- The queues, the threads and the server. `written` is a ghost : the messages that were
sent, with type 0. -/
structure Chat where
  queues : Queues
  reg : Registry
  crashed : Bool
  msgs : List Entry
  hands : List (Thread × Entry)
  forwarding : Option Forward
  now : ℤ
  written : List Message

namespace Chat

/-- Nothing has been sent. -/
def start (queues : Queues) : Chat :=
  ⟨queues, .init, false, [], [], none, 0, []⟩

variable (s : Chat)

/-- `msgsnd`. -/
def msgsnd (q : Queue) (item : Item) : Chat :=
  { s with msgs := s.msgs ++ [(q, item)] }

/-- `msgrcv`. -/
def msgrcv (q : Queue) (mtype : ℤ) : Option (Item × Chat) :=
  (Lib.receive s.queues.key s.msgs (s.queues.msqid q, mtype)).map fun r =>
    (r.1.2, { s with msgs := r.2 })

/-- A thread has messages to send. -/
def hold (t : Thread) (es : List Entry) : Chat :=
  { s with hands := s.hands ++ es.map fun e => (t, e) }

/-- The server has ended. -/
def crash : Chat :=
  { s with crashed := true }

/-- The thread is between two system calls. -/
def Free (t : Thread) : Prop :=
  (t.isServer = true → s.crashed = false) ∧ ∀ h ∈ s.hands, h.1 ≠ t

instance (t : Thread) : Decidable (s.Free t) :=
  inferInstanceAs (Decidable (_ ∧ _))

/-- A thread makes its next `msgsnd`. -/
def flush (t : Thread) : Option Chat :=
  if t.isServer = true ∧ s.crashed = true then none
  else
    (Lib.receive Prod.fst s.hands t).map fun r =>
      { s with hands := r.2, msgs := s.msgs ++ [r.1.2] }

/-- The next `msgsnd` of a thread fails. A thread of the server goes on, a loop of a client
returns. -/
def fail (t : Thread) : Option Chat :=
  if t.isServer = true ∧ s.crashed = true then none
  else
    (Lib.receive Prod.fst s.hands t).map fun r =>
      { s with hands := if t.isServer then r.2 else r.2.filter fun h => h.1 ≠ t }

/-! ## The server -/

/-- `handle_group_send_msgs` takes a message. -/
def handleGroupSendMsgs : Option Chat := do
  let (item, s') ← s.msgrcv .server groupMessage
  let .chat msg := item | none
  match s.reg.findGroupById msg.dst with
  | some (some grp) =>
    match s.reg.groups[grp]? with
    | some g => some { s' with
        forwarding := some ⟨grp, { msg with protocol := groupMessage }, 0, g.numClients⟩ }
    | none => some s'.crash
  | _ => some s'.crash

/-- The `cid` of member `i` of a group. -/
def memberCid (grp i : ℕ) : Option ℤ :=
  if i < maxEntries then do
    let g ← s.reg.groups[grp]?
    let member ← g.clients i
    let clt ← s.reg.clients[member]?
    some clt.cid
  else none

/-- `send_group_message` goes on to its next member. `sent` is whether the `msgsnd`
succeeds. -/
def sendToMember (f : Forward) (sent : Bool) : Chat :=
  if (f.i : ℤ) < f.numClients then
    match s.memberCid f.grp f.i with
    | none => s.crash
    | some cid =>
      if sent then
        let s := s.msgsnd .server (.chat { f.msg with mtype := cid + 5000 })
        if f.i < s.reg.clients.length then { s with forwarding := some { f with i := f.i + 1 } }
        else s.crash
      else { s with forwarding := none }
  else { s with forwarding := none }

/-- `handle_client_send_msgs`. -/
def handleClientSendMsgs : Option Chat := do
  let (item, s') ← s.msgrcv .server clientMessage
  let .chat msg := item | none
  match s.reg.handleClientSendMsgs msg with
  | some msg => some (s'.hold .clientSend [(.server, .chat msg)])
  | none => some s'.crash

/-- `handle_queries`. -/
def handleQueries : Option Chat := do
  let (item, s') ← s.msgrcv .server queryRequestType
  let .query query := item | none
  match s.reg.handleQueries query with
  | some (q, qs) => some (s'.hold .queries (qs.map fun qres => (.clt q, .queryResponse qres)))
  | none => some s'.crash

/-- `handle_control_msgs`. `queue` is what `get_queue` returns. -/
def handleControlMsgs (queue : ℤ) (garbage : Garbage) : Option Chat := do
  let (item, s') ← s.msgrcv .server controlType
  let .control cmsg := item | none
  match s.reg.handleControlMsgs cmsg queue garbage with
  | some (reg, q, cres) =>
    some ({ s' with reg := reg }.hold .control [(.clt q, .controlResponse cres)])
  | none => some s'.crash

/-! ## The clients -/

/-- `MESSAGE_TYPE_CLIENT` and `MESSAGE_TYPE_GROUP`. -/
inductive MessageType where
  | client
  | group
deriving DecidableEq

/-- The protocol, and the type for the server. -/
def MessageType.protocol : MessageType → ℤ
  | .client => clientMessage
  | .group => groupMessage

/-- An iteration of `start_message_send_loop` after `fgets`. `msg` has the other fields. -/
def sendMessage (uid : ℤ) (pid : ℕ) (type : MessageType) (msg : Message) : Chat :=
  let msg := { msg with mtype := 0, protocol := type.protocol, src := uid }
  let own : List Entry := match type with
    | .client => [(.client uid, .chat { msg with mtype := msg.dst + 10000 })]
    | .group => []
  let forward : Entry := (.server, .chat { msg with mtype := type.protocol })
  { s with written := msg :: s.written }.hold (.main uid pid) (own ++ [forward])

/-- The test of `handle_messages`. -/
def Expired (now : ℤ) (msg : Message) : Prop :=
  0 < msg.autoDelete ∧ msg.autoDelete < now - msg.timestamp

instance (now : ℤ) (msg : Message) : Decidable (Expired now msg) :=
  inferInstanceAs (Decidable (_ ∧ _))

/-- `handle_messages` takes a message. -/
def handleMessages (uid : ℤ) (pid : ℕ) : Option Chat := do
  let (item, s') ← s.msgrcv .server (uid + 5000)
  let .chat msg := item | none
  if Expired s.now msg then some s'
  else if msg.protocol = groupMessage then
    some (s'.hold (.router uid pid) [(.client uid, .chat { msg with mtype := 5000 + msg.dst })])
  else if msg.protocol = clientMessage then
    some (s'.hold (.router uid pid) [(.client uid, .chat { msg with mtype := 10000 + msg.src })])
  else some s'

/-- What `start_message_rcv_loop` reads : a resolved group or client. -/
inductive Target where
  | group (gid : ℤ)
  | client (cid : ℤ)
deriving DecidableEq

/-- The type that it asks for. -/
def Target.mtype : Target → ℤ
  | .group gid => gid + 5000
  | .client cid => cid + 10000

/-! ## Steps -/

/-- What happens next. -/
inductive Label where
  | tick
  | flush (t : Thread)
  | fail (t : Thread)
  | handleGroupSendMsgs
  | sendToMember (sent : Bool)
  | handleClientSendMsgs
  | handleQueries
  | handleControlMsgs (queue : ℤ) (garbage : Garbage)
  | control (uid : ℤ) (pid : ℕ) (cmsg : ControlMessage)
  | query (uid : ℤ) (pid : ℕ) (query : QueryRequest)
  | sendMessage (uid : ℤ) (pid : ℕ) (type : MessageType) (msg : Message)
  | handleMessages (uid : ℤ) (pid : ℕ)
  | read (uid : ℤ) (pid : ℕ) (target : Target)
  | receiveControl (uid : ℤ) (pid : ℕ)
  | receiveQuery (uid : ℤ) (pid : ℕ)

/-- The thread that makes the step. -/
def Label.thread : Label → Option Thread
  | .tick | .flush _ | .fail _ => none
  | .handleGroupSendMsgs | .sendToMember _ => some .groupSend
  | .handleClientSendMsgs => some .clientSend
  | .handleQueries => some .queries
  | .handleControlMsgs _ _ => some .control
  | .control uid pid _ | .query uid pid _ | .sendMessage uid pid _ _ | .read uid pid _
  | .receiveControl uid pid | .receiveQuery uid pid => some (.main uid pid)
  | .handleMessages uid pid => some (.router uid pid)

/-- The step can be made now. A process sends with its own id, to a number that a query can
return, and takes the time before it waits for the text. -/
def Enabled (l : Label) : Prop :=
  (∀ t ∈ l.thread, s.Free t) ∧
    match l with
    | .control uid _ cmsg => IsUid uid ∧ cmsg.src = uid
    | .query uid _ query => IsUid uid ∧ query.src = uid
    | .sendMessage uid _ _ msg =>
      IsUid uid ∧ (msg.dst = -1 ∨ IsUid msg.dst) ∧ msg.timestamp ≤ s.now
    | .handleMessages uid _ => IsUid uid
    | .read uid _ (.group gid) => IsUid uid ∧ s.reg.HasGroup gid
    | .read uid _ (.client cid) => IsUid uid ∧ IsUid cid
    | .receiveControl uid _ | .receiveQuery uid _ => IsUid uid
    | .handleGroupSendMsgs => s.forwarding.isNone
    | _ => True

/-- What the step does. -/
def perform : Label → Option Chat
  | .tick => some { s with now := s.now + 1 }
  | .flush t => s.flush t
  | .fail t => s.fail t
  | .handleGroupSendMsgs => s.handleGroupSendMsgs
  | .sendToMember sent => s.forwarding.map fun f => s.sendToMember f sent
  | .handleClientSendMsgs => s.handleClientSendMsgs
  | .handleQueries => s.handleQueries
  | .handleControlMsgs queue garbage => s.handleControlMsgs queue garbage
  | .control _ _ cmsg => some (s.msgsnd .server (.control cmsg))
  | .query _ _ query => some (s.msgsnd .server (.query query))
  | .sendMessage uid pid type msg => some (s.sendMessage uid pid type msg)
  | .handleMessages uid pid => s.handleMessages uid pid
  | .read uid _ target => (s.msgrcv (.client uid) target.mtype).map Prod.snd
  | .receiveControl uid _ => (s.msgrcv (.client uid) controlResponseType).map Prod.snd
  | .receiveQuery uid _ => (s.msgrcv (.client uid) queryResponseType).map Prod.snd

instance : ∀ l, Decidable (s.Enabled l)
  | .control .. | .query .. | .sendMessage .. | .handleMessages .. | .read _ _ (.group _)
  | .read _ _ (.client _) | .receiveControl .. | .receiveQuery .. | .handleGroupSendMsgs | .tick
  | .flush _ | .fail _ | .sendToMember _ | .handleClientSendMsgs | .handleQueries
  | .handleControlMsgs .. => inferInstanceAs (Decidable (_ ∧ _))

end Chat

/-- One step. -/
def chatStep (s : Chat) (l : Chat.Label) : Option Chat :=
  if s.Enabled l then s.perform l else none

/-! ## What a step does -/

namespace Chat

variable {s s' : Chat}

/-- What is on a queue or in a hand. -/
def entries (s : Chat) : List Entry :=
  s.msgs ++ s.hands.map Prod.snd

/-- The message is on the queue that goes by the name. -/
def On (s : Chat) (q : Queue) (item : Item) : Prop :=
  ∃ q', s.queues.msqid q' = s.queues.msqid q ∧ (q', item) ∈ s.msgs

/-- The entry is sent by the step. -/
inductive Sends (s : Chat) : Label → Entry → Prop where
  | own (uid : ℤ) (pid : ℕ) (msg : Message) :
    Sends s (.sendMessage uid pid .client msg) (.client uid,
      .chat { msg with mtype := msg.dst + 10000, protocol := clientMessage, src := uid })
  | toServer (uid : ℤ) (pid : ℕ) (type : MessageType) (msg : Message) :
    Sends s (.sendMessage uid pid type msg) (.server,
      .chat { msg with mtype := type.protocol, protocol := type.protocol, src := uid })
  | control (uid : ℤ) (pid : ℕ) (cmsg : ControlMessage) :
    Sends s (.control uid pid cmsg) (.server, .control cmsg)
  | query (uid : ℤ) (pid : ℕ) (query : QueryRequest) :
    Sends s (.query uid pid query) (.server, .query query)
  | toMember (f : Forward) (hf : s.forwarding = some f) (cid : ℤ) (hcid : cid ∈ s.reg.cids) :
    Sends s (.sendToMember true) (.server, .chat { f.msg with mtype := cid + 5000 })
  | toClient (msg : Message) (hmem : s.On .server (.chat msg))
    (hmtype : msg.mtype = clientMessage) (hcid : msg.dst ∈ s.reg.cids) :
    Sends s .handleClientSendMsgs (.server,
      .chat { msg with protocol := clientMessage, mtype := msg.dst + 5000 })
  | queryResponse (q : ℤ) (qres : QueryResponse) :
    Sends s .handleQueries (.clt q, .queryResponse qres)
  | controlResponse (queue : ℤ) (garbage : Garbage) (q : ℤ) (cres : ControlResponse) :
    Sends s (.handleControlMsgs queue garbage) (.clt q, .controlResponse cres)
  | ofGroup (uid : ℤ) (pid : ℕ) (msg : Message) (hmem : s.On .server (.chat msg))
    (hmtype : msg.mtype = uid + 5000) (hlive : ¬Expired s.now msg)
    (hprotocol : msg.protocol = groupMessage) :
    Sends s (.handleMessages uid pid) (.client uid, .chat { msg with mtype := 5000 + msg.dst })
  | ofClient (uid : ℤ) (pid : ℕ) (msg : Message) (hmem : s.On .server (.chat msg))
    (hmtype : msg.mtype = uid + 5000) (hlive : ¬Expired s.now msg)
    (hprotocol : msg.protocol = clientMessage) :
    Sends s (.handleMessages uid pid) (.client uid, .chat { msg with mtype := 10000 + msg.src })

/-- What a step does to the queues, the server and the clock. -/
structure Steps (s : Chat) (l : Label) (s' : Chat) : Prop where
  entries : ∀ e ∈ s'.entries, e ∈ s.entries ∨ Sends s l e
  now : s'.now = s.now ∨ l = .tick ∧ s'.now = s.now + 1
  queues : s'.queues = s.queues
  reg : s'.reg = s.reg ∨ ∃ cmsg queue garbage q cres, s.On .server (.control cmsg) ∧
    s.reg.handleControlMsgs cmsg queue garbage = some (s'.reg, q, cres)
  written : s'.written = s.written ∨ ∃ uid pid type msg, l = .sendMessage uid pid type msg ∧
    s'.written = { msg with mtype := 0, protocol := type.protocol, src := uid } :: s.written
  forwarding : ∀ f ∈ s'.forwarding, (∃ f' ∈ s.forwarding, f.msg = f'.msg) ∨
    ∃ msg grp, s.On .server (.chat msg) ∧ msg.mtype = groupMessage ∧
      s.reg.findGroupById msg.dst = some (some grp) ∧
        f.msg = { msg with protocol := groupMessage }

/-- What `msgrcv` takes, and what it leaves. -/
theorem exists_of_msgrcv {q : Queue} {t : ℤ} {item : Item}
    (h : s.msgrcv q t = some (item, s')) :
    s.On q item ∧ item.mtype = t ∧ ∃ msgs, msgs ⊆ s.msgs ∧ s' = { s with msgs := msgs } := by
  obtain ⟨⟨⟨q', item'⟩, msgs⟩, hr, heq⟩ := Option.map_eq_some_iff.1 h
  obtain ⟨rfl, rfl⟩ := Prod.mk.inj heq
  have hkey : s.queues.key (q', item') = (s.queues.msqid q, t) := Lib.key_of_receive hr
  obtain ⟨hq, hmtype⟩ := Prod.mk.inj hkey
  exact ⟨⟨q', hq, Lib.mem_of_receive hr⟩, hmtype, msgs, Lib.subset_of_receive hr, rfl⟩

theorem mem_entries_hold {t : Thread} {es : List Entry} {e : Entry} :
    e ∈ (s.hold t es).entries ↔ e ∈ s.entries ∨ e ∈ es := by
  have hmap : (es.map fun e => (t, e)).map Prod.snd = es := by
    rw [List.map_map]
    exact List.map_id es
  simp only [entries, hold, List.map_append, hmap, List.mem_append, or_assoc]

theorem mem_entries_msgsnd {q : Queue} {item : Item} {e : Entry} :
    e ∈ (s.msgsnd q item).entries ↔ e ∈ s.entries ∨ e = (q, item) := by
  simp only [entries, msgsnd, List.mem_append, List.mem_singleton]
  tauto

theorem entries_subset {msgs : List Entry} (h : msgs ⊆ s.msgs) :
    entries { s with msgs := msgs } ⊆ s.entries :=
  List.append_subset.2
    ⟨List.Subset.trans h (List.subset_append_left ..), List.subset_append_right ..⟩

/-- A step that leaves the server and the clock. -/
theorem Steps.sends {l : Label} (hentries : ∀ e ∈ s'.entries, e ∈ s.entries ∨ Sends s l e)
    (hnow : s'.now = s.now) (hqueues : s'.queues = s.queues) (hreg : s'.reg = s.reg)
    (hwritten : s'.written = s.written) (hforwarding : s'.forwarding = s.forwarding) :
    Steps s l s' where
  entries := hentries
  now := .inl hnow
  queues := hqueues
  reg := .inl hreg
  written := .inl hwritten
  forwarding f hf := .inl ⟨f, hforwarding ▸ hf, rfl⟩

theorem steps_flush {t : Thread} (h : s.flush t = some s') : Steps s (.flush t) s' := by
  unfold flush at h
  split at h
  · cases h
  obtain ⟨⟨x, rest⟩, hr, rfl⟩ := Option.map_eq_some_iff.1 h
  refine .sends (fun e he => .inl ?_) rfl rfl rfl rfl rfl
  have hx : x ∈ s.hands := Lib.mem_of_receive hr
  simp only [entries, List.mem_append, List.mem_singleton] at he ⊢
  rcases he with (he | rfl) | he
  · exact .inl he
  · exact .inr (List.mem_map_of_mem hx)
  · exact .inr (List.map_subset _ (Lib.subset_of_receive hr) he)

/-- What a failed `msgsnd` leaves in the hands. -/
theorem hands_of_fail {t : Thread} (h : s.fail t = some s') :
    ∃ hands, hands ⊆ s.hands ∧ s' = { s with hands := hands } := by
  unfold fail at h
  split at h
  · cases h
  obtain ⟨⟨x, rest⟩, hr, rfl⟩ := Option.map_eq_some_iff.1 h
  refine ⟨_, ?_, rfl⟩
  split
  · exact Lib.subset_of_receive hr
  · exact List.Subset.trans (List.filter_subset_self _) (Lib.subset_of_receive hr)

theorem steps_fail {t : Thread} (h : s.fail t = some s') : Steps s (.fail t) s' := by
  obtain ⟨hands, hsub, rfl⟩ := hands_of_fail h
  refine .sends (fun e he => .inl ?_) rfl rfl rfl rfl rfl
  exact List.append_subset.2 ⟨List.subset_append_left .., List.Subset.trans
    (List.map_subset _ hsub) (List.subset_append_right ..)⟩ he

theorem steps_handleGroupSendMsgs (h : s.handleGroupSendMsgs = some s') :
    Steps s .handleGroupSendMsgs s' := by
  obtain ⟨⟨item, s₁⟩, hrcv, h⟩ := Option.bind_eq_some_iff.1 h
  obtain ⟨hmem, hmtype, msgs, hsub, rfl⟩ := exists_of_msgrcv hrcv
  have hentries : ∀ e ∈ entries { s with msgs := msgs },
      e ∈ s.entries ∨ Sends s .handleGroupSendMsgs e := fun e he => .inl (entries_subset hsub he)
  cases item with
  | chat msg =>
    simp only at h
    split at h
    · rename_i grp hgrp
      split at h
      · obtain rfl := Option.some.inj h
        refine ⟨hentries, .inl rfl, rfl, .inl rfl, .inl rfl, fun f hf => .inr ?_⟩
        obtain rfl := Option.some.inj hf
        exact ⟨msg, grp, hmem, hmtype, hgrp, rfl⟩
      · obtain rfl := Option.some.inj h
        exact .sends hentries rfl rfl rfl rfl rfl
    · obtain rfl := Option.some.inj h
      exact .sends hentries rfl rfl rfl rfl rfl
  | query | control | queryResponse | controlResponse => cases h

theorem mem_cids_of_memberCid {grp i : ℕ} {cid : ℤ} (h : s.memberCid grp i = some cid) :
    cid ∈ s.reg.cids := by
  unfold memberCid at h
  split_ifs at h
  obtain ⟨g, -, h⟩ := Option.bind_eq_some_iff.1 h
  obtain ⟨member, -, h⟩ := Option.bind_eq_some_iff.1 h
  obtain ⟨clt, hclt, h⟩ := Option.bind_eq_some_iff.1 h
  obtain rfl := Option.some.inj h
  exact List.mem_map_of_mem (List.mem_of_getElem? hclt)

theorem steps_sendToMember {f : Forward} (hf : s.forwarding = some f) (sent : Bool) :
    Steps s (.sendToMember sent) (s.sendToMember f sent) := by
  have hquiet : ∀ {s'}, s'.entries = s.entries → s'.now = s.now → s'.queues = s.queues →
      s'.reg = s.reg → s'.written = s.written → (∀ f' ∈ s'.forwarding, f'.msg = f.msg) →
      Steps s (.sendToMember sent) s' := fun he hnow hqueues hreg hwritten hfor =>
    ⟨fun e h => .inl (he ▸ h), .inl hnow, hqueues, .inl hreg, .inl hwritten,
      fun f' hf' => .inl ⟨f, hf, hfor f' hf'⟩⟩
  unfold sendToMember
  split
  · split
    · exact hquiet rfl rfl rfl rfl rfl fun f' hf' => by
        obtain rfl := Option.some.inj (hf.symm.trans hf')
        rfl
    · rename_i cid hcid
      cases sent with
      | true =>
        have hsend : ∀ e ∈ (s.msgsnd .server (.chat { f.msg with mtype := cid + 5000 })).entries,
            e ∈ s.entries ∨ Sends s (.sendToMember true) e := fun e he => by
          rcases mem_entries_msgsnd.1 he with he | rfl
          · exact .inl he
          · exact .inr (.toMember f hf cid (mem_cids_of_memberCid hcid))
        simp only [if_true]
        split
        · refine ⟨hsend, .inl rfl, rfl, .inl rfl, .inl rfl, fun f' hf' => .inl ⟨f, hf, ?_⟩⟩
          obtain rfl := Option.some.inj hf'
          rfl
        · exact .sends hsend rfl rfl rfl rfl rfl
      | false => exact hquiet rfl rfl rfl rfl rfl fun _ hf' => by cases hf'
  · exact hquiet rfl rfl rfl rfl rfl fun _ hf' => by cases hf'

theorem exists_of_handleClientSendMsgs {reg : Registry} {msg msg' : Message}
    (h : reg.handleClientSendMsgs msg = some msg') : msg.dst ∈ reg.cids ∧
      msg' = { msg with protocol := clientMessage, mtype := msg.dst + 5000 } := by
  obtain ⟨i, hi, h⟩ := Option.bind_eq_some_iff.1 h
  obtain ⟨c, hc, h⟩ := Option.bind_eq_some_iff.1 h
  obtain ⟨c', hc', hcid⟩ := Registry.findClientById_eq_some hi
  obtain rfl := Option.some.inj (hc.symm.trans hc')
  obtain rfl := Option.some.inj h
  exact ⟨Registry.known_iff.1 ⟨c, List.mem_of_getElem? hc, hcid⟩, by rw [hcid]⟩

theorem steps_handleClientSendMsgs (h : s.handleClientSendMsgs = some s') :
    Steps s .handleClientSendMsgs s' := by
  obtain ⟨⟨item, s₁⟩, hrcv, h⟩ := Option.bind_eq_some_iff.1 h
  obtain ⟨hmem, hmtype, msgs, hsub, rfl⟩ := exists_of_msgrcv hrcv
  cases item with
  | chat msg =>
    simp only at h
    split at h
    · rename_i msg' hmsg
      obtain rfl := Option.some.inj h
      obtain ⟨hcid, rfl⟩ := exists_of_handleClientSendMsgs hmsg
      refine .sends (fun e he => ?_) rfl rfl rfl rfl rfl
      rcases mem_entries_hold.1 he with he | he
      · exact .inl (entries_subset hsub he)
      · rw [List.mem_singleton.1 he]
        exact .inr (.toClient msg hmem hmtype hcid)
    · obtain rfl := Option.some.inj h
      exact .sends (fun e he => .inl (entries_subset hsub he)) rfl rfl rfl rfl rfl
  | query | control | queryResponse | controlResponse => cases h

theorem steps_handleQueries (h : s.handleQueries = some s') : Steps s .handleQueries s' := by
  obtain ⟨⟨item, s₁⟩, hrcv, h⟩ := Option.bind_eq_some_iff.1 h
  obtain ⟨hmem, hmtype, msgs, hsub, rfl⟩ := exists_of_msgrcv hrcv
  cases item with
  | query query =>
    simp only at h
    split at h
    · rename_i q qs hqs
      obtain rfl := Option.some.inj h
      refine .sends (fun e he => ?_) rfl rfl rfl rfl rfl
      rcases mem_entries_hold.1 he with he | he
      · exact .inl (entries_subset hsub he)
      · obtain ⟨qres, -, rfl⟩ := List.mem_map.1 he
        exact .inr (.queryResponse q qres)
    · obtain rfl := Option.some.inj h
      exact .sends (fun e he => .inl (entries_subset hsub he)) rfl rfl rfl rfl rfl
  | chat | control | queryResponse | controlResponse => cases h

theorem steps_handleControlMsgs {queue : ℤ} {garbage : Garbage}
    (h : s.handleControlMsgs queue garbage = some s') :
    Steps s (.handleControlMsgs queue garbage) s' := by
  obtain ⟨⟨item, s₁⟩, hrcv, h⟩ := Option.bind_eq_some_iff.1 h
  obtain ⟨hmem, hmtype, msgs, hsub, rfl⟩ := exists_of_msgrcv hrcv
  cases item with
  | control cmsg =>
    simp only at h
    split at h
    · rename_i reg q cres hreg
      obtain rfl := Option.some.inj h
      refine ⟨fun e he => ?_, .inl rfl, rfl, .inr ⟨cmsg, queue, garbage, q, cres, hmem, hreg⟩,
        .inl rfl, fun f hf => .inl ⟨f, hf, rfl⟩⟩
      rcases mem_entries_hold.1 he with he | he
      · exact .inl (entries_subset hsub he)
      · rw [List.mem_singleton.1 he]
        exact .inr (.controlResponse queue garbage q cres)
    · obtain rfl := Option.some.inj h
      exact .sends (fun e he => .inl (entries_subset hsub he)) rfl rfl rfl rfl rfl
  | chat | query | queryResponse | controlResponse => cases h

theorem steps_sendMessage (uid : ℤ) (pid : ℕ) (type : MessageType) (msg : Message) :
    Steps s (.sendMessage uid pid type msg) (s.sendMessage uid pid type msg) := by
  refine ⟨fun e he => ?_, .inl rfl, rfl, .inl rfl, .inr ⟨uid, pid, type, msg, rfl, rfl⟩,
    fun f hf => .inl ⟨f, hf, rfl⟩⟩
  rcases mem_entries_hold.1 he with he | he
  · exact .inl he
  rcases List.mem_append.1 he with he | he
  · cases type with
    | client =>
      rw [List.mem_singleton.1 he]
      exact .inr (.own uid pid msg)
    | group => exact absurd he List.not_mem_nil
  · rw [List.mem_singleton.1 he]
    exact .inr (.toServer uid pid type msg)

theorem steps_handleMessages {uid : ℤ} {pid : ℕ} (h : s.handleMessages uid pid = some s') :
    Steps s (.handleMessages uid pid) s' := by
  obtain ⟨⟨item, s₁⟩, hrcv, h⟩ := Option.bind_eq_some_iff.1 h
  obtain ⟨hmem, hmtype, msgs, hsub, rfl⟩ := exists_of_msgrcv hrcv
  have hkeep : ∀ e ∈ entries { s with msgs := msgs },
      e ∈ s.entries ∨ Sends s (.handleMessages uid pid) e :=
    fun e he => .inl (entries_subset hsub he)
  cases item with
  | chat msg =>
    simp only at h
    split at h
    · obtain rfl := Option.some.inj h
      exact .sends hkeep rfl rfl rfl rfl rfl
    rename_i hlive
    split at h
    · rename_i hgroup
      obtain rfl := Option.some.inj h
      refine .sends (fun e he => ?_) rfl rfl rfl rfl rfl
      rcases mem_entries_hold.1 he with he | he
      · exact hkeep e he
      · rw [List.mem_singleton.1 he]
        exact .inr (.ofGroup uid pid msg hmem hmtype hlive hgroup)
    split at h
    · rename_i hclient
      obtain rfl := Option.some.inj h
      refine .sends (fun e he => ?_) rfl rfl rfl rfl rfl
      rcases mem_entries_hold.1 he with he | he
      · exact hkeep e he
      · rw [List.mem_singleton.1 he]
        exact .inr (.ofClient uid pid msg hmem hmtype hlive hclient)
    · obtain rfl := Option.some.inj h
      exact .sends hkeep rfl rfl rfl rfl rfl
  | query | control | queryResponse | controlResponse => cases h

/-- A receive on a client queue. -/
theorem steps_msgrcv {q : Queue} {t : ℤ} {l : Label} (h : (s.msgrcv q t).map Prod.snd = some s') :
    Steps s l s' := by
  obtain ⟨⟨item, s₁⟩, hrcv, rfl⟩ := Option.map_eq_some_iff.1 h
  obtain ⟨-, -, msgs, hsub, rfl⟩ := exists_of_msgrcv hrcv
  exact .sends (fun e he => .inl (entries_subset hsub he)) rfl rfl rfl rfl rfl

theorem steps_of_chatStep {l : Label} (h : chatStep s l = some s') : Steps s l s' := by
  unfold chatStep at h
  split at h
  · cases l with
    | tick =>
      obtain rfl := Option.some.inj h
      exact ⟨fun e he => .inl he, .inr ⟨rfl, rfl⟩, rfl, .inl rfl, .inl rfl,
        fun f hf => .inl ⟨f, hf, rfl⟩⟩
    | flush t => exact steps_flush h
    | fail t => exact steps_fail h
    | handleGroupSendMsgs => exact steps_handleGroupSendMsgs h
    | sendToMember sent =>
      obtain ⟨f, hf, rfl⟩ := Option.map_eq_some_iff.1 h
      exact steps_sendToMember hf sent
    | handleClientSendMsgs => exact steps_handleClientSendMsgs h
    | handleQueries => exact steps_handleQueries h
    | handleControlMsgs queue garbage => exact steps_handleControlMsgs h
    | control uid pid cmsg =>
      obtain rfl := Option.some.inj h
      refine .sends (fun e he => ?_) rfl rfl rfl rfl rfl
      rcases mem_entries_msgsnd.1 he with he | rfl
      · exact .inl he
      · exact .inr (.control uid pid cmsg)
    | query uid pid query =>
      obtain rfl := Option.some.inj h
      refine .sends (fun e he => ?_) rfl rfl rfl rfl rfl
      rcases mem_entries_msgsnd.1 he with he | rfl
      · exact .inl he
      · exact .inr (.query uid pid query)
    | sendMessage uid pid type msg =>
      obtain rfl := Option.some.inj h
      exact steps_sendMessage uid pid type msg
    | handleMessages uid pid => exact steps_handleMessages h
    | read uid pid target => exact steps_msgrcv h
    | receiveControl uid pid => exact steps_msgrcv h
    | receiveQuery uid pid => exact steps_msgrcv h
  · cases h

end Chat

end NetProg.MsgQueue
