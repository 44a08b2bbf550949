import NetProg.Lib.Run
import NetProg.Lib.DList

/-!
# The joined groups of the group chat

The client keeps the multicast groups it has joined in a doubly linked list with `head`,
`tail` and `count` (`struct multicast_group_list`). `initMulticastGroup`,
`insertMulticastGroup`, `removeMulticastGroup`, `joinMulticastGroup`,
`leaveMulticastGroup`, `findGroupByName`, `findGroupByIpAndPort`, `listGroups` and
`cleanup` are the functions of `utils.c` and `group_comm.c` over that list, with every
socket call successful. They fail where the C code follows a pointer to a node that was
freed, or NULL.

`step` runs one command of the user. Its label carries what the environment returns : the
block `calloc` gives, the descriptors, the reply of the network. The state has the groups
joined and not yet left as a ghost component, which `joinedAfter` updates from the
commands alone.
-/

namespace NetProg.GroupChat

/-- `struct sockaddr_in`, with the port in host order. -/
structure SockAddr where
  addr : BitVec 32
  port : BitVec 16
deriving DecidableEq, Repr

/-- `struct multicast_group` without its links. -/
structure Group where
  name : String
  ip : String
  port : ℤ
  sendFd : ℤ
  sendAddr : SockAddr
  recvFd : ℤ
  recvAddr : SockAddr
deriving DecidableEq, Repr

/-- What the user sees of a group. -/
structure Joined where
  name : String
  ip : String
  port : ℤ
deriving DecidableEq, Repr

def Group.joined (g : Group) : Joined :=
  ⟨g.name, g.ip, g.port⟩

/-- `struct multicast_group_list`, with the heap. -/
structure GroupList where
  heap : Heap Group
  head : Option ℕ
  tail : Option ℕ
  count : ℤ

/-- The list after `calloc`. -/
def GroupList.empty : GroupList :=
  ⟨Heap.empty, none, none, 0⟩

/-- What the calls made for a new group return : the block and the two descriptors. -/
structure Fresh where
  block : ℕ
  recvFd : ℤ
  sendFd : ℤ
deriving DecidableEq, Repr

namespace GroupList

variable (mc : GroupList)

/-- `findGroupByName`. -/
def findGroupByName (grpName : String) : Option (Option ℕ) :=
  mc.heap.search (fun g => g.name == grpName) mc.heap.bound mc.head

/-- `findGroupByIpAndPort`. -/
def findGroupByIpAndPort (ip : String) (port : ℤ) : Option (Option ℕ) :=
  mc.heap.search (fun g => g.ip == ip && g.port == port) mc.heap.bound mc.head

/-- The node `initMulticastGroup` fills in. -/
def newGroup (inetAddr : String → BitVec 32) (name ip : String) (port : ℤ) (new : Fresh) : Group where
  name := name
  ip := ip
  port := port
  sendFd := new.sendFd
  sendAddr := ⟨inetAddr ip, BitVec.ofInt 16 port⟩
  recvFd := new.recvFd
  recvAddr := ⟨0, BitVec.ofInt 16 port⟩

/-- `initMulticastGroup`. The inner result is `err` (-1 or -2), or the list with the new
block, which is not linked yet. -/
def initMulticastGroup (inetAddr : String → BitVec 32) (name ip : String) (port : ℤ)
    (new : Fresh) : Option (Except ℤ GroupList) :=
  match mc.findGroupByName name with
  | none => none
  | some (some _) => some (.error (-1))
  | some none =>
    match mc.findGroupByIpAndPort ip port with
    | none => none
    | some (some _) => some (.error (-2))
    | some none =>
      (mc.heap.alloc new.block ⟨newGroup inetAddr name ip port new, none, none⟩).map
        fun heap => .ok { mc with heap := heap }

/-- `insertMulticastGroup`. -/
def insertMulticastGroup (group : ℕ) : Option GroupList :=
  if mc.count = 0 then
    some { mc with head := some group, tail := some group, count := mc.count + 1 }
  else
    (mc.heap.modify mc.tail fun n => { n with next := some group }).bind fun heap =>
    (heap.modify (some group) fun n => { n with prev := mc.tail }).bind fun heap =>
    some { mc with heap := heap, tail := some group, count := mc.count + 1 }

/-- `joinMulticastGroup`, which reads `grp->ip` for the socket option. -/
def joinMulticastGroup (grp : ℕ) : Option GroupList :=
  (mc.heap.load (some grp)).bind fun _ => mc.insertMulticastGroup grp

/-- The loop of `removeMulticastGroup` : `prev` and `curr` after at most `count` turns.
`memcmp` compares whole nodes, links included. -/
def seekGroup (heap : Heap Group) (group : Node Group) :
    ℕ → Option ℕ → Option ℕ → Option (Option ℕ × Option ℕ)
  | 0, prev, curr => some (prev, curr)
  | count + 1, prev, curr =>
    match heap.load curr with
    | none => none
    | some n => if n = group then some (prev, curr) else seekGroup heap group count curr n.next

/-- `removeMulticastGroup`. The inner result is `none` for the return value -1. -/
def removeMulticastGroup (group : ℕ) : Option (Option GroupList) := do
  let g ← mc.heap.load (some group)
  let (prev, curr) ← seekGroup mc.heap g mc.count.toNat none mc.head
  if curr = none then
    return none
  let n ← mc.heap.load curr
  let (heap, head) ←
    if prev = none then some (mc.heap, n.next)
    else (mc.heap.modify prev fun m => { m with next := n.next }).map fun heap => (heap, mc.head)
  let heap ←
    if n.next ≠ none then heap.modify n.next fun m => { m with prev := prev } else some heap
  return some { mc with heap := heap, head := head, count := mc.count - 1 }

/-- `leaveMulticastGroup`. -/
def leaveMulticastGroup (grp : ℕ) : Option GroupList := do
  let _ ← mc.heap.load (some grp)
  match ← mc.removeMulticastGroup grp with
  | none => return mc
  | some mc =>
    let heap ← mc.heap.free (some grp)
    return { mc with heap := heap }

/-- The loop of `listGroups`, which goes by the count. -/
def listLoop (heap : Heap Group) : ℕ → Option ℕ → Option (List Joined)
  | 0, _ => some []
  | count + 1, curr =>
    match heap.load curr with
    | none => none
    | some n => (listLoop heap count n.next).map (n.data.joined :: ·)

/-- `listGroups` : the lines printed. -/
def listGroups : Option (List Joined) :=
  listLoop mc.heap mc.count.toNat mc.head

/-- The descriptors the main loop and `getMaxFd` read, which go by `next`. -/
def recvFds : Option (List ℤ) :=
  if mc.count > 0 then (mc.heap.toList mc.heap.bound mc.head).map (List.map Group.recvFd) else some []

/-- The loop of `cleanup` : `curr->next` is read after `curr` was left. -/
def cleanupLoop : ℕ → GroupList → Option ℕ → Option GroupList
  | _, mc, none => some mc
  | 0, _, some _ => none
  | fuel + 1, mc, some curr => do
    let mc ← mc.leaveMulticastGroup curr
    let n ← mc.heap.load (some curr)
    cleanupLoop fuel mc n.next

/-- `cleanup`. -/
def cleanup : Option GroupList :=
  cleanupLoop mc.heap.bound mc mc.head

end GroupList

/-! ## Commands -/

/-- The part of a `FIND_GROUP_REPLY` that is used. -/
structure FindGrpReply where
  grpName : String
  ip : String
  port : ℤ
deriving DecidableEq, Repr

/-- A command, with what the environment answers. -/
inductive Command where
  | createGroup (name ip : String) (port : ℤ) (new : Fresh)
  | joinGroup (name : String) (reply : Option FindGrpReply) (new : Fresh)
  | leaveGroup (name : String)
  | listGroups
  /-- A turn of the main loop. -/
  | select
  /-- `exit`, Ctrl+C or an error. -/
  | cleanup
deriving DecidableEq, Repr

/-- `handleFindGroupCmd` : the reply is for the name asked for. -/
def handleFindGroupCmd (mc : GroupList) (grpName : String) (reply : Option FindGrpReply) :
    Option (Option FindGrpReply) :=
  match mc.findGroupByName grpName with
  | none => none
  | some (some _) => some none
  | some none => some (reply.filter fun r => r.grpName == grpName)

/-- Create the group and join it. -/
def createAndJoin (inetAddr : String → BitVec 32) (mc : GroupList) (name ip : String) (port : ℤ)
    (new : Fresh) : Option GroupList :=
  match mc.initMulticastGroup inetAddr name ip port new with
  | none => none
  | some (.error _) => some mc
  | some (.ok mc) => mc.joinMulticastGroup new.block

/-- The branch of `main` for a command. -/
def runCommand (inetAddr : String → BitVec 32) (mc : GroupList) : Command → Option GroupList
  | .createGroup name ip port new => createAndJoin inetAddr mc name ip port new
  | .joinGroup name reply new =>
    match handleFindGroupCmd mc name reply with
    | none => none
    | some none => some mc
    | some (some r) => createAndJoin inetAddr mc r.grpName r.ip r.port new
  | .leaveGroup name =>
    match mc.findGroupByName name with
    | none => none
    | some none => some mc
    | some (some grp) => mc.leaveMulticastGroup grp
  | .listGroups => mc.listGroups.map fun _ => mc
  | .select => mc.recvFds.map fun _ => mc
  | .cleanup => mc.cleanup

/-! ## The abstract sequence of groups -/

/-- Joining a group, unless its name or its address is taken. -/
def addJoined (js : List Joined) (j : Joined) : List Joined :=
  if js.any (fun i => i.name == j.name) || js.any (fun i => i.ip == j.ip && i.port == j.port) then js
  else js ++ [j]

/-- The groups joined and not yet left after a command. -/
def joinedAfter (js : List Joined) : Command → List Joined
  | .createGroup name ip port _ => addJoined js ⟨name, ip, port⟩
  | .joinGroup name reply _ =>
    if js.any fun i => i.name == name then js
    else
      match reply with
      | some r => if r.grpName = name then addJoined js ⟨r.grpName, r.ip, r.port⟩ else js
      | none => js
  | .leaveGroup name => js.filter fun i => i.name != name
  | .listGroups | .select => js
  | .cleanup => []

/-! ## The system -/

/-- The client, with the groups that are joined as a ghost. -/
inductive App where
  | running (mc : GroupList) (joined : List Joined)
  | exited
  /-- A command followed NULL or a pointer to a freed node. -/
  | fault

/-- The block a command is given is not in use. -/
def Command.allocates (mc : GroupList) : Command → Bool
  | .createGroup _ _ _ new | .joinGroup _ _ new => (mc.heap.cells new.block).isNone
  | _ => true

/-- One command. -/
def step (inetAddr : String → BitVec 32) : App → Command → Option App
  | .running mc js, cmd =>
    if cmd.allocates mc then
      match runCommand inetAddr mc cmd with
      | none => some .fault
      | some mc' => some (if cmd = .cleanup then .exited else .running mc' (joinedAfter js cmd))
    else none
  | .exited, _ => none
  | .fault, _ => none

/-- The client at the start of the main loop. -/
def start : App :=
  .running GroupList.empty []

end NetProg.GroupChat
