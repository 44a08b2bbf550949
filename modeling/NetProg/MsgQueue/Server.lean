import NetProg.Cluster.Handler
import NetProg.Lib.Run

/-!
# The server of the message queue chat

The server keeps its clients and groups in the global arrays `clients` and `groups`. Four
threads take messages from the server queue, each thread the messages of one type, and answer
on the queue of the client. Here a thread handles a message in one step.

`none` is a fault : a NULL pointer that is followed, an index outside of `clients`, `groups`
or the members of a group, or a member that is no pointer to a client. A pointer to a client
is its index. What `malloc` leaves in a new group and what `msgget` and `msgsnd` return are
arguments. A field that is not set before it is sent is `none`. Texts are taken to fit in
their arrays.
-/

namespace NetProg.MsgQueue

open Cluster (decimal)

/-- `MAX`, the length of `clients`, of `groups` and of the members of a group. -/
def maxEntries : ℕ :=
  1024

/-- `Client`. -/
structure Client where
  cid : ℤ
  name : List Char
  queuePath : List Char
  queue : ℤ
  numGroups : ℤ
deriving DecidableEq, Repr

/-- `Group`. -/
structure Group where
  gid : ℤ
  name : List Char
  numClients : ℤ
  clients : ℕ → Option ℕ

/-- Write a client behind the members and count it. -/
def Group.add (g : Group) (clt : ℕ) : Group :=
  { g with
    clients := Function.update g.clients g.numClients.toNat (some clt)
    numClients := g.numClients + 1 }

@[simp] theorem Group.numClients_add (g : Group) (clt : ℕ) :
    (g.add clt).numClients = g.numClients + 1 :=
  rfl

theorem Group.clients_add (g : Group) (clt : ℕ) :
    (g.add clt).clients = Function.update g.clients g.numClients.toNat (some clt) :=
  rfl

/-- What `malloc` leaves in the fields that `new_group` does not set. -/
structure Garbage where
  numClients : ℤ
  clients : ℕ → Option ℕ

/-- The global variables. The lengths are `total_clients` and `total_groups`. -/
structure Registry where
  clients : List Client
  groups : List Group
  nextGroupId : ℤ

/-- `Message`. -/
structure Message where
  mtype : ℤ
  protocol : ℤ
  src : ℤ
  dst : ℤ
  autoDelete : ℤ
  timestamp : ℤ
  status : ℤ
  srcName : List Char
  content : List Char
deriving DecidableEq, Repr

/-- `CLIENT_MESSAGE`. -/
def clientMessage : ℤ :=
  1

/-- `GROUP_MESSAGE`. -/
def groupMessage : ℤ :=
  2

/-- `STATUS_OK`. -/
def statusOk : ℤ :=
  200

/-- `STATUS_ERROR`. -/
def statusError : ℤ :=
  500

/-- `query_type`. -/
inductive QueryType where
  | client
  | group
  | other (n : ℤ)
deriving DecidableEq, Repr

/-- `QueryRequest`. -/
structure QueryRequest where
  src : ℤ
  queryType : QueryType
  content : List Char
deriving DecidableEq, Repr

/-- `QueryResponse`. -/
structure QueryResponse where
  status : Option ℤ
  content : Option (List Char)
deriving DecidableEq, Repr

/-- The `action` of a control message. -/
inductive Action where
  | registerClient
  | joinGroup
  | leaveGroup
  | createGroup
  | other (n : ℤ)
deriving DecidableEq, Repr

/-- `ControlMessage`. -/
structure ControlMessage where
  queuePath : List Char
  name : List Char
  action : Action
  src : ℤ
  gid : ℤ
deriving DecidableEq, Repr

/-- `ControlResponse`. -/
structure ControlResponse where
  action : Action
  status : ℤ
  gid : Option ℤ
deriving DecidableEq, Repr

namespace Registry

/-- The server at its start. -/
def init : Registry :=
  ⟨[], [], 0⟩

variable (s : Registry)

/-- `find_group_by_id`. The inner `none` is NULL. -/
def findGroupById (id : ℤ) : Option (Option ℕ) :=
  let search := s.groups.findIdx? fun g => g.gid = id
  if id < s.groups.length then
    if id < 0 then none
    else if s.groups[id.toNat]?.any fun g => g.gid = id then some (some id.toNat)
    else some search
  else some search

/-- `find_group_by_name`. -/
def findGroupByName (name : List Char) : Option ℕ :=
  s.groups.findIdx? fun g => g.name = name

/-- `find_client_by_id`. -/
def findClientById (id : ℤ) : Option ℕ :=
  s.clients.findIdx? fun c => c.cid = id

/-- `find_client_by_name`. -/
def findClientByName (name : List Char) : Option ℕ :=
  s.clients.findIdx? fun c => c.name = name

/-- The loop of `send_group_message`, with `n` members left. `sent i` is whether the `i`-th
`msgsnd` succeeds. The line that it prints has the name of client `i` of all clients. -/
def sendLoop (grp : Group) (msg : Message) (sent : ℕ → Bool) : ℕ → ℕ → Option (List Message)
  | 0, _ => some []
  | n + 1, i =>
    if i < maxEntries then do
      let member ← grp.clients i
      let clt ← s.clients[member]?
      if sent i then
        let _ ← s.clients[i]?
        let rest ← sendLoop grp msg sent n (i + 1)
        some ({ msg with protocol := groupMessage, mtype := clt.cid + 5000 } :: rest)
      else some []
    else none

/-- `send_group_message`. The result is what is put on the server queue. -/
def sendGroupMessage (grp : Option ℕ) (msg : Message) (sent : ℕ → Bool) : Option (List Message) := do
  let g ← s.groups[← grp]?
  s.sendLoop g msg sent g.numClients.toNat 0

/-- `send_client_message`. -/
def sendClientMessage (clt : Option ℕ) (msg : Message) : Option Message := do
  let c ← s.clients[← clt]?
  some { msg with protocol := clientMessage, mtype := c.cid + 5000 }

/-- `append_trailing_slash`. -/
def appendTrailingSlash (str : List Char) : List Char :=
  if str.getLast? = some '/' then str else str ++ ['/']

/-- `register_client`. `queue` is what `get_queue` returns. The inner `none` is NULL. -/
def registerClient (uid : ℤ) (name queuePath : List Char) (queue : ℤ) :
    Option (Registry × Option ℕ) :=
  match s.findClientById uid with
  | some clt => some (s, some clt)
  | none =>
    if queue < 0 then some (s, none)
    else if s.clients.length < maxEntries then
      some ({ s with clients := s.clients ++
        [⟨uid, name, appendTrailingSlash queuePath, queue, 0⟩] }, some s.clients.length)
    else none

/-- `join_group`. -/
def joinGroup (grp : ℕ) (clt : Option ℕ) : Option Registry := do
  let clt ← clt
  let c ← s.clients[clt]?
  let g ← s.groups[grp]?
  if 0 ≤ g.numClients ∧ g.numClients < maxEntries then
    some { s with
      clients := s.clients.set clt { c with numGroups := c.numGroups + 1 }
      groups := s.groups.set grp (g.add clt) }
  else none

/-- `new_group`. -/
def newGroup (gid : ℤ) (name : List Char) (garbage : Garbage) : Group :=
  ⟨gid, name, garbage.numClients, garbage.clients⟩

/-- `create_group` before its creator joins. -/
def addGroup (name : List Char) (garbage : Garbage) : Registry :=
  { s with
    groups := s.groups ++ [newGroup s.nextGroupId name garbage]
    nextGroupId := s.nextGroupId + 1 }

/-- `create_group`. The result has the index of the group. -/
def createGroup (name : List Char) (creator : Option ℕ) (garbage : Garbage) :
    Option (Registry × ℕ) :=
  if s.groups.length < maxEntries then
    ((s.addGroup name garbage).joinGroup s.groups.length creator).map fun s' => (s', s.groups.length)
  else none

/-- A turn of `handle_group_send_msgs`. -/
def handleGroupSendMsgs (msg : Message) (sent : ℕ → Bool) : Option (List Message) := do
  let grp ← s.findGroupById msg.dst
  s.sendGroupMessage grp msg sent

/-- A turn of `handle_client_send_msgs`. -/
def handleClientSendMsgs (msg : Message) : Option Message :=
  s.sendClientMessage (s.findClientById msg.dst) msg

/-- The answer to a query for a name. -/
def nameResponse (id : Option ℤ) : QueryResponse :=
  match id with
  | none => ⟨some statusError, none⟩
  | some id => ⟨some statusOk, some (decimal id)⟩

/-- The answers to a query for all, from the texts of the entries. -/
def allResponses (texts : List (List Char)) : List QueryResponse :=
  texts.map (fun text => ⟨some statusOk, some text⟩) ++
    [⟨if texts = [] then none else some statusOk, some "_END_".toList⟩]

/-- The `switch` of `handle_queries`. -/
def queryResponses (query : QueryRequest) : List QueryResponse :=
  match query.queryType with
  | .client =>
    if query.content = "_ALL_".toList then
      allResponses (s.clients.map fun c =>
        "name = ".toList ++ c.name ++ " | cid = ".toList ++ decimal c.cid)
    else [nameResponse
      ((s.findClientByName query.content).bind fun i => s.clients[i]?.map Client.cid)]
  | .group =>
    if query.content = "_ALL_".toList then
      allResponses (s.groups.map fun g =>
        "name = ".toList ++ g.name ++ " | gid = ".toList ++ decimal g.gid)
    else [nameResponse
      ((s.findGroupByName query.content).bind fun i => s.groups[i]?.map Group.gid)]
  | .other _ => [⟨some statusError, some "Invalid request!".toList⟩]

/-- A turn of `handle_queries`. The result is the queue of the client and what is put on it. -/
def handleQueries (query : QueryRequest) : Option (ℤ × List QueryResponse) := do
  let srcClient ← s.clients[← s.findClientById query.src]?
  some (srcClient.queue, s.queryResponses query)

/-- The `switch` of `handle_control_msgs`. -/
def control (cmsg : ControlMessage) (queue : ℤ) (garbage : Garbage) :
    Option (Registry × ControlResponse) :=
  match cmsg.action with
  | .registerClient =>
    (s.registerClient cmsg.src cmsg.name cmsg.queuePath queue).map fun (s', _) =>
      (s', ⟨cmsg.action, statusOk, none⟩)
  | .joinGroup => do
    let grp ← s.findGroupById cmsg.gid
    let s' ← s.joinGroup (← grp) (s.findClientById cmsg.src)
    some (s', ⟨cmsg.action, statusOk, none⟩)
  | .createGroup => do
    let (s', grp) ← s.createGroup cmsg.name (s.findClientById cmsg.src) garbage
    let g ← s'.groups[grp]?
    some (s', ⟨cmsg.action, statusOk, some g.gid⟩)
  | .leaveGroup | .other _ => some (s, ⟨cmsg.action, statusError, none⟩)

/-- A turn of `handle_control_msgs`. The result has the queue of the client and the answer. -/
def handleControlMsgs (cmsg : ControlMessage) (queue : ℤ) (garbage : Garbage) :
    Option (Registry × ℤ × ControlResponse) := do
  let (s', cres) ← s.control cmsg queue garbage
  let srcClt ← s'.clients[← s'.findClientById cmsg.src]?
  some (s', srcClt.queue, cres)

end Registry

/-- A message on the server queue, with what the system calls return while it is handled. -/
inductive Event where
  | control (cmsg : ControlMessage) (queue : ℤ) (garbage : Garbage)
  | query (query : QueryRequest)
  | groupMessage (msg : Message) (sent : ℕ → Bool)
  | clientMessage (msg : Message)

/-- One message is handled. -/
def step (s : Registry) : Event → Option Registry
  | .control cmsg queue garbage => (s.handleControlMsgs cmsg queue garbage).map Prod.fst
  | .query query => (s.handleQueries query).map fun _ => s
  | .groupMessage msg sent => (s.handleGroupSendMsgs msg sent).map fun _ => s
  | .clientMessage msg => (s.handleClientSendMsgs msg).map fun _ => s

end NetProg.MsgQueue
