import NetProg.MsgQueue.Faults
import NetProg.Lib.Exchange

/-!
# Calls of the clients

A client process puts a request on the server queue and takes the answer from the client
queue, by its type only. The queue is found by a path in the home of the user, so that all
processes of a user share it.

Control messages and queries are an exchange each. The number of a request is not in the
messages. What the server has created or answered for a request, and what the processes have
received, is recorded. `join_group` is a query and then a control message. The server has the
client queue for the user, since it goes by the same path. A field of a message that is not
set is 0 or empty here when nobody looks at it, and `junk` when the client does.

`ownAnswers_of_orderly` says that every call gets its own answer when the processes receive in
the order in which they sent, and nobody asks for the name that the server takes for all.
-/

namespace NetProg.MsgQueue

open Cluster (atoi)
open Lib (Exchange)

/-- What a call that sends a control message asks for. -/
inductive ControlCall where
  | register
  | createGroup (name : List Char)
  | joinGroup (gid : ℤ)
deriving DecidableEq, Repr

/-- What a call that sends a query asks for. In `join_group` a query comes first. -/
inductive QueryCall where
  | getGid (name : List Char)
  | getCid (name : List Char)
  | joinGroup (name : List Char)
deriving DecidableEq, Repr

/-- The calls of a client process. -/
inductive Call where
  | register
  | createGroup (name : List Char)
  | joinGroup (name : List Char)
  | getGid (name : List Char)
  | getCid (name : List Char)
deriving DecidableEq, Repr

/-- The user that runs the processes. -/
structure User where
  uid : ℤ
  name : List Char
  queuePath : List Char

/-- The control message of a call. -/
def User.controlMessage (u : User) : ControlCall → ControlMessage
  | .register => ⟨u.queuePath, u.name, .registerClient, u.uid, 0⟩
  | .createGroup name => ⟨[], name, .createGroup, u.uid, 0⟩
  | .joinGroup gid => ⟨[], [], .joinGroup, u.uid, gid⟩

/-- The name that a query has. -/
def QueryCall.name : QueryCall → List Char
  | .getGid name | .getCid name | .joinGroup name => name

/-- The query of a call. -/
def User.queryRequest (u : User) : QueryCall → QueryRequest
  | .getGid name | .joinGroup name => ⟨u.uid, .group, name⟩
  | .getCid name => ⟨u.uid, .client, name⟩

/-- What a call makes of the answer to its control message. -/
def controlValue (junk : ℤ) (cres : ControlResponse) : ControlCall → ℤ
  | .register => if cres.status ≠ statusOk then -1 else 0
  | .createGroup _ => if cres.status ≠ statusOk then -1 else cres.gid.getD junk
  | .joinGroup gid => gid

/-- What `get_gid` and `get_cid` make of the answer to their query. -/
def queryValue (junk : ℤ) (qres : QueryResponse) : ℤ :=
  if qres.status.getD junk = statusError then -1 else atoi (qres.content.getD [])

/-- Where a process is. The number is that of its request. -/
inductive Pc where
  | idle
  | awaitQuery (call : QueryCall) (n : ℕ)
  | sendJoin (gid : ℤ)
  | awaitControl (call : ControlCall) (n : ℕ)
deriving DecidableEq, Repr

/-- The control message that a process waits for the answer to. -/
def Pc.controlWait : Pc → Option (ControlCall × ℕ)
  | .awaitControl call n => some (call, n)
  | _ => none

/-- The query that a process waits for the answer to. -/
def Pc.queryWait : Pc → Option (QueryCall × ℕ)
  | .awaitQuery call n => some (call, n)
  | _ => none

/-- A call has received a response : the numbers of its request and of the request that the
response is to, and what the call makes of it. -/
structure Receipt (γ : Type*) where
  call : γ
  request : ℕ
  response : ℕ
  value : ℤ
deriving DecidableEq, Repr

/-- The server, the two queues and the processes of a user. -/
structure System (ι : Type*) where
  reg : Registry
  pc : ι → Pc
  nextNumber : ℕ
  control : Exchange ControlMessage ControlResponse
  query : Exchange QueryRequest QueryResponse
  created : List (ℕ × List Char × ℤ)
  answered : List (ℕ × QueryRequest × QueryResponse)
  controlReceipts : List (Receipt ControlCall)
  queryReceipts : List (Receipt QueryCall)

/-- What can happen next. -/
inductive Move (ι : Type*) where
  | call (p : ι) (call : Call)
  | sendJoin (p : ι)
  | serveControl (queue : ℤ) (garbage : Garbage)
  | serveQuery
  | receive (p : ι) (junk : ℤ)

namespace System

variable {ι : Type*} [DecidableEq ι]

/-- No process has called yet. -/
def start (reg : Registry) : System ι where
  reg := reg
  pc _ := .idle
  nextNumber := 0
  control := .empty
  query := .empty
  created := []
  answered := []
  controlReceipts := []
  queryReceipts := []

/-- A process sends a control message. -/
def sendControl (u : User) (s : System ι) (p : ι) (call : ControlCall) : System ι :=
  { s with
    pc := Function.update s.pc p (.awaitControl call s.nextNumber)
    nextNumber := s.nextNumber + 1
    control := s.control.send s.nextNumber (u.controlMessage call) }

/-- A process sends a query. -/
def sendQuery (u : User) (s : System ι) (p : ι) (call : QueryCall) : System ι :=
  { s with
    pc := Function.update s.pc p (.awaitQuery call s.nextNumber)
    nextNumber := s.nextNumber + 1
    query := s.query.send s.nextNumber (u.queryRequest call) }

/-- A process begins a call. -/
def begin (u : User) (s : System ι) (p : ι) : Call → System ι
  | .register => s.sendControl u p .register
  | .createGroup name => s.sendControl u p (.createGroup name)
  | .joinGroup name => s.sendQuery u p (.joinGroup name)
  | .getGid name => s.sendQuery u p (.getGid name)
  | .getCid name => s.sendQuery u p (.getCid name)

/-- The control handler takes a message. A group that is new then was created for it. -/
def serveControl (s : System ι) (queue : ℤ) (garbage : Garbage) : Option (System ι) :=
  match s.control.requests with
  | [] => none
  | (n, cmsg) :: rest =>
    (s.reg.handleControlMsgs cmsg queue garbage).map fun r =>
      { s with
        reg := r.1
        control := s.control.serve n rest [r.2.2]
        created := s.created ++
          (r.1.groups[s.reg.groups.length]?.map fun g => (n, g.name, g.gid)).toList }

/-- The query handler takes a query. -/
def serveQuery (s : System ι) : Option (System ι) :=
  match s.query.requests with
  | [] => none
  | (n, query) :: rest =>
    (s.reg.handleQueries query).map fun r =>
      { s with
        query := s.query.serve n rest r.2
        answered := s.answered ++ r.2.map fun qres => (n, query, qres) }

/-- A process receives the first answer to a control message. -/
def receiveControl (s : System ι) (p : ι) (call : ControlCall) (n : ℕ) (junk : ℤ) :
    Option (System ι) :=
  match s.control.responses with
  | [] => none
  | (m, cres) :: rest => some
    { s with
      pc := Function.update s.pc p .idle
      control := s.control.receive rest
      controlReceipts := s.controlReceipts ++ [⟨call, n, m, controlValue junk cres call⟩] }

/-- Where a process goes with the id that its query has given it. -/
def afterQuery (id : ℤ) : QueryCall → Pc
  | .joinGroup _ => if id < 0 then .idle else .sendJoin id
  | _ => .idle

/-- A process receives the first answer to a query. -/
def receiveQuery (s : System ι) (p : ι) (call : QueryCall) (n : ℕ) (junk : ℤ) :
    Option (System ι) :=
  match s.query.responses with
  | [] => none
  | (m, qres) :: rest => some
    { s with
      pc := Function.update s.pc p (afterQuery (queryValue junk qres) call)
      query := s.query.receive rest
      queryReceipts := s.queryReceipts ++ [⟨call, n, m, queryValue junk qres⟩] }

/-- One step of the system. -/
def step (u : User) (s : System ι) : Move ι → Option (System ι)
  | .call p call => if s.pc p = .idle then some (s.begin u p call) else none
  | .sendJoin p =>
    match s.pc p with
    | .sendJoin gid => some (s.sendControl u p (.joinGroup gid))
    | _ => none
  | .serveControl queue garbage => s.serveControl queue garbage
  | .serveQuery => s.serveQuery
  | .receive p junk =>
    match s.pc p with
    | .awaitControl call n => s.receiveControl p call n junk
    | .awaitQuery call n => s.receiveQuery p call n junk
    | _ => none

/-- Every call has received the response to its own request : `create_group` the id of the
group that was created for it, and `get_gid` and `get_cid` what their query was answered. -/
structure OwnAnswers (u : User) (s : System ι) : Prop where
  control : ∀ r ∈ s.controlReceipts, r.response = r.request ∧
    ∀ name, r.call = .createGroup name → (r.request, name, r.value) ∈ s.created
  query : ∀ r ∈ s.queryReceipts, r.response = r.request ∧
    ∃ qres, (r.request, u.queryRequest r.call, qres) ∈ s.answered ∧
      ∀ junk, r.value = queryValue junk qres

/-- The name that stands for all groups or clients. -/
def allName : List Char :=
  ['_', 'A', 'L', 'L', '_']

/-- No other process has waited longer for an answer of the kind that `p` waits for. -/
def WaitsLongest {γ : Type*} (s : System ι) (wait : Pc → Option (γ × ℕ)) (p : ι) : Prop :=
  ∀ w ∈ wait (s.pc p), ∀ q, q ≠ p → ∀ v ∈ wait (s.pc q), w.2 < v.2

/-- A process only receives an answer when no other has waited longer for one of the same
kind, and no process asks for all. -/
def Orderly (s : System ι) : Move ι → Prop
  | .call _ (.getGid name) | .call _ (.getCid name) | .call _ (.joinGroup name) => name ≠ allName
  | .receive p _ => s.WaitsLongest Pc.controlWait p ∧ s.WaitsLongest Pc.queryWait p
  | _ => True

instance {γ : Type*} [Fintype ι] (s : System ι) (wait : Pc → Option (γ × ℕ)) (p : ι) :
    Decidable (s.WaitsLongest wait p) :=
  inferInstanceAs (Decidable (∀ w ∈ wait (s.pc p), ∀ q, q ≠ p → ∀ v ∈ wait (s.pc q), w.2 < v.2))

instance [Fintype ι] (s : System ι) : ∀ e, Decidable (s.Orderly e)
  | .call _ (.getGid name) | .call _ (.getCid name) | .call _ (.joinGroup name) =>
    inferInstanceAs (Decidable (name ≠ allName))
  | .receive p _ =>
    inferInstanceAs (Decidable (s.WaitsLongest Pc.controlWait p ∧ s.WaitsLongest Pc.queryWait p))
  | .call _ .register | .call _ (.createGroup _) | .sendJoin _ | .serveControl _ _
  | .serveQuery => .isTrue trivial

end System

end NetProg.MsgQueue
