import NetProg.GroupChat.Endpoints
import NetProg.GroupChat.FindGroup

/-!
# Groups across the network

Any number of clients, each with the list of the groups it joined. A client that has not
joined a group asks for it with a broadcast (`findGroupSend`) and waits in `findGroupRecv` ;
every client that has it answers with its name, IP and port (`handleFindGroupReq`). Datagrams
are lost, repeated and reordered : what was sent stays in `Net.requests` and `Net.replies`, and
a step takes any of them. `Net.created` is a ghost, the groups given to `create-group`.

Nothing in a reply is made up on the way : every group that a client has joined or was told
of is one that somebody created (`known_of_run`). So the members of a group talk at one
address if and as long as nobody creates the name at a second one, which no check prevents.
-/

namespace NetProg.GroupChat

/-! ## Clients on a network -/

/-- A `join-group` or `find-group` command in `findGroupRecv`, with what has arrived. -/
structure Search where
  grpName : String
  join : Bool
  replyPort : ℕ
  wakes : List Wake
deriving DecidableEq, Repr

/-- A client in the main loop, or waiting for a reply. -/
structure Peer where
  app : App
  search : Option Search

/-- A broadcast `FIND_GROUP_REQ`. The address it comes from is the client's number. -/
structure FindGrpReq where
  src : ℕ
  replyPort : ℕ
  query : String
deriving DecidableEq, Repr

/-- A reply, with the socket it is sent to. -/
structure Reply where
  dst : ℕ
  port : ℕ
  msg : Message
deriving DecidableEq, Repr

structure Net where
  peers : List Peer
  requests : List FindGrpReq
  replies : List Reply
  /-- The groups that were given to `create-group`. -/
  created : List Joined
  /-- What `find-group` has printed. -/
  found : List Joined

/-- `n` clients at the start of the main loop. -/
def Net.start (n : ℕ) : Net :=
  ⟨List.replicate n ⟨GroupChat.start, none⟩, [], [], [], []⟩

/-- `handleFindGroupReq`, for a query : the reply, if the group is joined. -/
def handleFindGroupReq (mc : GroupList) (query : String) : Option (Option Message) :=
  match mc.findGroupByName query with
  | none => none
  | some none => some none
  | some (some grp) => (mc.heap.load (some grp)).map fun n =>
      some ⟨findGroupReply, n.data.name, n.data.ip, n.data.port⟩

inductive NetLabel where
  /-- A command of client `k` other than `join-group` and `find-group`, or the `cleanup` of a
  signal. -/
  | attempt (k : ℕ) (a : Attempt)
  /-- `join-group` or `find-group` up to the wait. -/
  | search (k : ℕ) (grpName : String) (join : Bool) (replyPort : ℕ)
  /-- Client `k` handles request `i`. -/
  | request (k i : ℕ)
  /-- Reply `i` arrives at client `k`. -/
  | reply (k i wait : ℕ)
  /-- Something else arrives at the reply socket of client `k`, or a signal. -/
  | other (k : ℕ) (w : Wake)
  /-- `findGroupRecv` ends. If the sockets are `opened`, the group that is joined gets `new`. -/
  | found (k : ℕ) (opened : Bool) (new : Fresh)
deriving DecidableEq, Repr

/-- The attempt is not made for a reply. -/
def Attempt.isOwn : Attempt → Bool
  | .command (.joinGroup ..) => false
  | _ => true

/-- The group that a `create-group` sets up. -/
def Attempt.creates (inetAddr : String → BitVec 32) : App → Attempt → List Joined
  | .running mc _, .command (.createGroup name ip port new) =>
    match mc.initMulticastGroup inetAddr name ip port new with
    | some (.ok _) => [⟨name, ip, port⟩]
    | _ => []
  | _, _ => []

def FindGrpReply.joined (r : FindGrpReply) : Joined :=
  ⟨r.grpName, r.ip, r.port⟩

/-- `main` sets up the group of a reply. -/
def joinAttempt (grpName : String) (r : FindGrpReply) (opened : Bool) (new : Fresh) : Attempt :=
  if opened then .command (.joinGroup grpName (some r) new)
  else .socketFails r.grpName r.ip r.port new

def Search.wake (q : Search) (w : Wake) : Search :=
  { q with wakes := q.wakes ++ [w] }

def Net.setPeer (net : Net) (k : ℕ) (p : Peer) : Net :=
  { net with peers := net.peers.set k p }

/-- One step of the network. -/
def netStep (inetAddr : String → BitVec 32) (net : Net) : NetLabel → Option Net
  | .attempt k a => do
    let p ← net.peers[k]?
    if a.isOwn ∧ (p.search.isNone ∨ a = .command .cleanup) then
      let app ← tryStep inetAddr p.app a
      return { net.setPeer k ⟨app, none⟩ with created := net.created ++ a.creates inetAddr p.app }
    else none
  | .search k grpName join replyPort => do
    let p ← net.peers[k]?
    match p.app, p.search with
    | .running mc js, none =>
      match mc.findGroupByName grpName with
      | none => some (net.setPeer k ⟨.fault, none⟩)
      | some (some _) => some net
      | some none => some { net.setPeer k ⟨.running mc js, some ⟨grpName, join, replyPort, []⟩⟩ with
          requests := net.requests ++ [⟨k, replyPort, grpName⟩] }
    | _, _ => none
  | .request k i => do
    let p ← net.peers[k]?
    let req ← net.requests[i]?
    match p.app, p.search with
    | .running mc _, none =>
      match handleFindGroupReq mc req.query with
      | none => some (net.setPeer k ⟨.fault, none⟩)
      | some msg => some { net with
          replies := net.replies ++ msg.toList.map fun msg => ⟨req.src, req.replyPort, msg⟩ }
    | _, _ => none
  | .reply k i wait => do
    let p ← net.peers[k]?
    let q ← p.search
    let r ← net.replies[i]?
    if r.dst = k ∧ r.port = q.replyPort then
      return net.setPeer k ⟨p.app, some (q.wake ⟨wait, some r.msg⟩)⟩
    else none
  | .other k w => do
    let p ← net.peers[k]?
    let q ← p.search
    if ∀ msg ∈ w.msg, msg.msgType ≠ findGroupReply then
      return net.setPeer k ⟨p.app, some (q.wake w)⟩
    else none
  | .found k opened new => do
    let p ← net.peers[k]?
    let q ← p.search
    match findGroupRecv q.grpName q.wakes with
    | .blocked => none
    | .fault => some (net.setPeer k ⟨.fault, none⟩)
    | .returned none => some (net.setPeer k ⟨p.app, none⟩)
    | .returned (some msg) =>
      if q.join then
        (tryStep inetAddr p.app (joinAttempt q.grpName msg.findGrpReply opened new)).map fun app =>
          net.setPeer k ⟨app, none⟩
      else some { net.setPeer k ⟨p.app, none⟩ with
          found := net.found ++ [msg.findGrpReply.joined] }

/-! ## Where the groups come from -/

/-- Every reachable group is one of `created`, and sends to its address. -/
def Known (inetAddr : String → BitVec 32) (created : List Joined) : App → Prop
  | .running mc _ => ∃ l, Chained mc l ∧
      ∀ x ∈ l, x.2.joined ∈ created ∧ x.2.sendAddr = endpoint inetAddr x.2.joined
  | .exited | .fault => True

/-- The client and the replies that it has received. -/
structure Peer.Known (inetAddr : String → BitVec 32) (created : List Joined) (p : Peer) : Prop where
  app : GroupChat.Known inetAddr created p.app
  wakes : ∀ q ∈ p.search, ∀ w ∈ q.wakes, ∀ msg ∈ w.msg, msg.msgType = findGroupReply →
    msg.findGrpReply.joined ∈ created

/-- Everything that is told of a group comes from a `create-group`. -/
structure Traced (inetAddr : String → BitVec 32) (net : Net) : Prop where
  peers : ∀ p ∈ net.peers, p.Known inetAddr net.created
  replies : ∀ r ∈ net.replies, r.msg.findGrpReply.joined ∈ net.created
  found : ∀ j ∈ net.found, j ∈ net.created

section Steps

variable {inetAddr : String → BitVec 32} {net net' : Net} {created created' : List Joined}

theorem Known.mono {s : App} (h : Known inetAddr created s) (hsub : created ⊆ created') :
    Known inetAddr created' s := by
  cases s with
  | running mc js =>
    obtain ⟨l, hl, hknown⟩ := h
    exact ⟨l, hl, fun x hx => ⟨hsub (hknown x hx).1, (hknown x hx).2⟩⟩
  | exited => trivial
  | fault => trivial

theorem Peer.Known.mono {p : Peer} (h : p.Known inetAddr created) (hsub : created ⊆ created') :
    p.Known inetAddr created' :=
  ⟨h.app.mono hsub, fun q hq w hw msg hm ht => hsub (h.wakes q hq w hw msg hm ht)⟩

/-- A client that does not wait. -/
theorem Known.idle {s : App} (h : Known inetAddr created s) :
    (⟨s, none⟩ : Peer).Known inetAddr created :=
  ⟨h, fun q hq => absurd hq (by simp)⟩

theorem Traced.setPeer (h : Traced inetAddr net) (k : ℕ) {p : Peer}
    (hp : p.Known inetAddr net.created) : Traced inetAddr (net.setPeer k p) := by
  refine ⟨fun p' hp' => ?_, h.replies, h.found⟩
  rcases List.mem_or_eq_of_mem_set hp' with hp' | rfl
  · exact h.peers p' hp'
  · exact hp

/-- An attempt adds only what it creates, or what a reply says. -/
theorem known_tryStep {s s' : App} {a : Attempt} (h : Known inetAddr created s)
    (hs : tryStep inetAddr s a = some s') (hsub : created ⊆ created')
    (hadds : ∀ mc js l cmd j, s = .running mc js → Chained mc l → a = .command cmd →
      cmd.allocates mc = true → j ∈ cmd.adds →
      (∀ x ∈ l, x.2.name ≠ j.name ∧ ¬(x.2.ip = j.ip ∧ x.2.port = j.port)) → j ∈ created') :
    Known inetAddr created' s' := by
  cases s with
  | exited => cases a <;> cases hs
  | fault => cases a <;> cases hs
  | running mc js =>
    obtain ⟨l, hl, hknown⟩ := h
    rcases tryStep_running hl hs with rfl | rfl | ⟨mc', js', l', rfl, hl', hcases⟩
    · trivial
    · trivial
    have hold : ∀ x ∈ l, x.2.joined ∈ created' ∧ x.2.sendAddr = endpoint inetAddr x.2.joined :=
      fun x hx => ⟨hsub (hknown x hx).1, (hknown x hx).2⟩
    rcases hcases with hsublist | ⟨cmd, rfl, j, hj, rfl | ⟨hpass, new, rfl⟩⟩
    · exact ⟨l', hl', fun x hx => hold x (hsublist.subset hx)⟩
    · exact ⟨l', hl', hold⟩
    · refine ⟨_, hl', fun x hx => ?_⟩
      rcases List.mem_append.1 hx with hx | hx
      · exact hold x hx
      · rw [List.mem_singleton.1 hx]
        have halloc : cmd.allocates mc = true := by
          by_contra hno
          simp [tryStep, step, hno] at hs
        exact ⟨hadds mc js l cmd j rfl hl rfl halloc hj hpass, rfl⟩

/-- A `create-group` that adds a group has set it up. -/
theorem mem_creates {mc : GroupList} {js : List Joined} {l : List (ℕ × Group)} {cmd : Command}
    {j : Joined} (hl : Chained mc l) (hown : (Attempt.command cmd).isOwn = true)
    (halloc : cmd.allocates mc = true) (hj : j ∈ cmd.adds)
    (hpass : ∀ x ∈ l, x.2.name ≠ j.name ∧ ¬(x.2.ip = j.ip ∧ x.2.port = j.port)) :
    j ∈ (Attempt.command cmd).creates inetAddr (.running mc js) := by
  cases cmd with
  | createGroup name ip port new =>
    obtain rfl : j = ⟨name, ip, port⟩ := (Option.some.inj hj).symm
    rcases initMulticastGroup_cases inetAddr hl.list name ip port
      (Option.isNone_iff_eq_none.1 halloc) with ⟨hnot, -⟩ | ⟨-, hinit⟩
    · exact absurd hpass hnot
    · simp [Attempt.creates, hinit]
  | joinGroup => cases hown
  | leaveGroup | listGroups | select | cleanup => cases hj

theorem traced_attempt (h : Traced inetAddr net) {k : ℕ} {a : Attempt}
    (hs : netStep inetAddr net (.attempt k a) = some net') : Traced inetAddr net' := by
  simp only [netStep, Option.bind_eq_bind, Option.bind_eq_some_iff] at hs
  obtain ⟨p, hp, hs⟩ := hs
  split at hs
  case isFalse => cases hs
  case isTrue hown =>
  obtain ⟨app, happ, hs⟩ := Option.bind_eq_some_iff.1 hs
  cases hs
  have hsub : net.created ⊆ net.created ++ a.creates inetAddr p.app := List.subset_append_left _ _
  have hknown : Known inetAddr (net.created ++ a.creates inetAddr p.app) app := by
    refine known_tryStep (h.peers p (List.mem_of_getElem? hp)).app happ hsub ?_
    rintro mc js l cmd j hrun hl rfl halloc hj hpass
    rw [hrun]
    exact List.mem_append_right _ (mem_creates hl hown.1 halloc hj hpass)
  refine ⟨fun p' hp' => ?_, fun r hr => hsub (h.replies r hr), fun j hj => hsub (h.found j hj)⟩
  rcases List.mem_or_eq_of_mem_set hp' with hp' | rfl
  · exact (h.peers p' hp').mono hsub
  · exact hknown.idle

theorem traced_search (h : Traced inetAddr net) {k : ℕ} {grpName : String} {join : Bool}
    {replyPort : ℕ} (hs : netStep inetAddr net (.search k grpName join replyPort) = some net') :
    Traced inetAddr net' := by
  simp only [netStep, Option.bind_eq_bind, Option.bind_eq_some_iff] at hs
  obtain ⟨p, hp, hs⟩ := hs
  split at hs
  · rename_i mc js happ hsearch
    split at hs
    · cases hs
      exact h.setPeer k ⟨trivial, fun q hq => absurd hq (by simp)⟩
    · cases hs
      exact h
    · cases hs
      have hknown := (h.peers p (List.mem_of_getElem? hp)).app
      rw [happ] at hknown
      have h' := h.setPeer k (p := ⟨.running mc js, some ⟨grpName, join, replyPort, []⟩⟩)
        ⟨hknown, fun q hq w hw => by
          obtain rfl := Option.some.inj hq
          cases hw⟩
      exact ⟨h'.peers, h'.replies, h'.found⟩
  · cases hs

/-- The answer to a request is a group of the list. -/
theorem exists_of_handleFindGroupReq {mc : GroupList} {l : List (ℕ × Group)} {query : String}
    {msg : Message} (hl : DList mc.heap mc.head l)
    (hreq : handleFindGroupReq mc query = some (some msg)) :
    ∃ x ∈ l, x.2.name = query ∧ msg = ⟨findGroupReply, x.2.name, x.2.ip, x.2.port⟩ := by
  have hsearch : mc.findGroupByName query =
      some ((l.find? fun x => x.2.name == query).map Prod.fst) :=
    hl.search_eq fun g : Group => g.name == query
  unfold handleFindGroupReq at hreq
  rw [hsearch] at hreq
  cases hx : l.find? fun x => x.2.name == query with
  | none =>
    rw [hx] at hreq
    cases hreq
  | some x =>
    have hmem := List.mem_of_find?_eq_some hx
    obtain ⟨n, hn, hdata⟩ := hl.seg.exists_cell hmem
    simp only [hx, Option.map_some, Heap.load_some, hn, hdata, Option.some.injEq] at hreq
    exact ⟨x, hmem, by simpa using List.find?_some hx, hreq.symm⟩

theorem traced_request (h : Traced inetAddr net) {k i : ℕ}
    (hs : netStep inetAddr net (.request k i) = some net') : Traced inetAddr net' := by
  simp only [netStep, Option.bind_eq_bind, Option.bind_eq_some_iff] at hs
  obtain ⟨p, hp, req, hreq, hs⟩ := hs
  split at hs
  · rename_i mc js happ hsearch
    split at hs
    · cases hs
      exact h.setPeer k ⟨trivial, fun q hq => absurd hq (by simp)⟩
    · rename_i msg hmsg
      cases hs
      refine ⟨h.peers, fun r hr => ?_, h.found⟩
      rcases List.mem_append.1 hr with hr | hr
      · exact h.replies r hr
      · obtain ⟨msg', hmsg', rfl⟩ := List.mem_map.1 hr
        obtain rfl : msg = some msg' := by simpa using hmsg'
        have hknown := (h.peers p (List.mem_of_getElem? hp)).app
        rw [happ] at hknown
        obtain ⟨l, hl, hknown⟩ := hknown
        obtain ⟨x, hx, -, rfl⟩ := exists_of_handleFindGroupReq hl.list hmsg
        exact (hknown x hx).1
  · cases hs

/-- A datagram that is not a false reply arrives. -/
theorem Peer.Known.wake {p : Peer} {q : Search} {w : Wake} (h : p.Known inetAddr created)
    (hq : p.search = some q) (hw : ∀ msg ∈ w.msg, msg.msgType = findGroupReply →
      msg.findGrpReply.joined ∈ created) :
    (⟨p.app, some (q.wake w)⟩ : Peer).Known inetAddr created := by
  refine ⟨h.app, fun q' hq' w' hw' => ?_⟩
  obtain rfl := Option.some.inj hq'
  rcases List.mem_append.1 hw' with hw' | hw'
  · exact h.wakes q hq w' hw'
  · rw [List.mem_singleton.1 hw']
    exact hw

theorem traced_reply (h : Traced inetAddr net) {k i wait : ℕ}
    (hs : netStep inetAddr net (.reply k i wait) = some net') : Traced inetAddr net' := by
  simp only [netStep, Option.bind_eq_bind, Option.bind_eq_some_iff] at hs
  obtain ⟨p, hp, q, hq, r, hr, hs⟩ := hs
  split at hs
  · cases hs
    refine h.setPeer k ((h.peers p (List.mem_of_getElem? hp)).wake hq fun msg hm _ => ?_)
    obtain rfl := Option.some.inj hm
    exact h.replies r (List.mem_of_getElem? hr)
  · cases hs

theorem traced_other (h : Traced inetAddr net) {k : ℕ} {w : Wake}
    (hs : netStep inetAddr net (.other k w) = some net') : Traced inetAddr net' := by
  simp only [netStep, Option.bind_eq_bind, Option.bind_eq_some_iff] at hs
  obtain ⟨p, hp, q, hq, hs⟩ := hs
  split at hs
  · rename_i hother
    cases hs
    exact h.setPeer k ((h.peers p (List.mem_of_getElem? hp)).wake hq fun msg hm ht =>
      absurd ht (hother msg hm))
  · cases hs

/-- What `findGroupRecv` returns has arrived. -/
theorem exists_wake_of_recvLoop {grpName : String} {ws : List Wake} {recvMsg : Option Message}
    {selecting : Bool} {msg : Message}
    (h : recvLoop grpName recvMsg selecting ws = .returned (some msg)) :
    ∃ w ∈ ws, w.msg = some msg := by
  induction ws generalizing recvMsg selecting with
  | nil => cases selecting <;> simp [recvLoop] at h
  | cons w ws ih =>
    have hlater : (∃ w ∈ ws, w.msg = some msg) → ∃ w' ∈ w :: ws, w'.msg = some msg := by
      rintro ⟨w', hw', hmsg⟩
      exact ⟨w', List.mem_cons_of_mem _ hw', hmsg⟩
    rw [recvLoop] at h
    split at h
    · cases h
    split at h
    · exact hlater (ih h)
    rename_i msg' hmsg'
    cases recvMsg with
    | none => cases h
    | some buffer =>
      simp only [recvFrom, Option.map_some] at h
      split at h
      · cases h
        exact ⟨w, List.mem_cons_self, hmsg'⟩
      · exact hlater (ih h)

theorem traced_found (h : Traced inetAddr net) {k : ℕ} {opened : Bool} {new : Fresh}
    (hs : netStep inetAddr net (.found k opened new) = some net') : Traced inetAddr net' := by
  simp only [netStep, Option.bind_eq_bind, Option.bind_eq_some_iff] at hs
  obtain ⟨p, hp, q, hq, hs⟩ := hs
  have hknown := h.peers p (List.mem_of_getElem? hp)
  split at hs
  · cases hs
  · cases hs
    exact h.setPeer k ⟨trivial, fun q hq => absurd hq (by simp)⟩
  · cases hs
    exact h.setPeer k hknown.app.idle
  · rename_i msg hrecv
    obtain ⟨w, hw, hmsg⟩ := exists_wake_of_recvLoop hrecv
    have hreply := isReply_of_recvLoop hrecv
    simp only [isReply, Bool.and_eq_true, beq_iff_eq] at hreply
    have hcreated := hknown.wakes q hq w hw msg hmsg hreply.1
    split at hs
    · obtain ⟨app, happ, rfl⟩ := Option.map_eq_some_iff.1 hs
      refine h.setPeer k (Known.idle (known_tryStep hknown.app happ (List.Subset.refl _) ?_))
      rintro mc js l cmd j - - hcmd - hj -
      cases opened with
      | false => cases hcmd
      | true =>
        obtain rfl : Command.joinGroup q.grpName (some msg.findGrpReply) new = cmd :=
          Attempt.command.inj hcmd
        obtain rfl : msg.findGrpReply.joined = j := by
          rw [FindGrpReply.joined, hreply.2]
          simpa [Command.adds, Option.filter, hreply.2] using hj
        exact hcreated
    · cases hs
      have h' := h.setPeer k hknown.app.idle
      refine ⟨h'.peers, h'.replies, fun j hj => ?_⟩
      rcases List.mem_append.1 hj with hj | hj
      · exact h.found j hj
      · rw [List.mem_singleton.1 hj]
        exact hcreated

theorem traced_step {lb : NetLabel} (h : Traced inetAddr net)
    (hs : netStep inetAddr net lb = some net') : Traced inetAddr net' := by
  cases lb with
  | attempt => exact traced_attempt h hs
  | search => exact traced_search h hs
  | request => exact traced_request h hs
  | reply => exact traced_reply h hs
  | other => exact traced_other h hs
  | found => exact traced_found h hs

theorem traced_start (n : ℕ) : Traced inetAddr (Net.start n) := by
  refine ⟨fun p hp => ?_, fun r hr => by simp [Net.start] at hr, fun j hj => by
    simp [Net.start] at hj⟩
  obtain ⟨-, rfl⟩ := List.mem_replicate.1 hp
  exact Known.idle ⟨[], chained_empty, fun x hx => by simp at hx⟩

end Steps

/-! ## Members of one group -/

/-- The group is in the client's list. -/
def Peer.HasJoined (p : Peer) (g : Group) : Prop :=
  ∃ mc js gs, p.app = .running mc js ∧ mc.reachable = some gs ∧ g ∈ gs

/-- What the clients know is true of the groups that were created. -/
structure Consistent (inetAddr : String → BitVec 32) (net : Net) : Prop where
  joined : ∀ p ∈ net.peers, ∀ g, p.HasJoined g →
    g.joined ∈ net.created ∧ g.sendAddr = endpoint inetAddr g.joined
  found : ∀ j ∈ net.found, j ∈ net.created
  /-- If no name was created at two addresses, all who joined it talk at one. -/
  agree : (∀ i ∈ net.created, ∀ j ∈ net.created, i.name = j.name →
      endpoint inetAddr i = endpoint inetAddr j) →
    ∀ p ∈ net.peers, ∀ p' ∈ net.peers, ∀ g g', p.HasJoined g → p'.HasJoined g' →
      g.name = g'.name → g.sendAddr = g'.sendAddr

theorem Traced.consistent {inetAddr : String → BitVec 32} {net : Net} (h : Traced inetAddr net) :
    Consistent inetAddr net := by
  have hjoined : ∀ p ∈ net.peers, ∀ g, p.HasJoined g →
      g.joined ∈ net.created ∧ g.sendAddr = endpoint inetAddr g.joined := by
    rintro p hp g ⟨mc, js, gs, happ, hgs, hg⟩
    have hknown := (h.peers p hp).app
    rw [happ] at hknown
    obtain ⟨l, hl, hknown⟩ := hknown
    obtain rfl := Option.some.inj (hl.list.toList_eq.symm.trans hgs)
    obtain ⟨x, hx, rfl⟩ := List.mem_map.1 hg
    exact hknown x hx
  refine ⟨hjoined, h.found, fun hone p hp p' hp' g g' hg hg' hname => ?_⟩
  obtain ⟨hmem, haddr⟩ := hjoined p hp g hg
  obtain ⟨hmem', haddr'⟩ := hjoined p' hp' g' hg'
  calc g.sendAddr = endpoint inetAddr g.joined := haddr
    _ = endpoint inetAddr g'.joined := hone _ hmem _ hmem' hname
    _ = g'.sendAddr := haddr'.symm

/-- Every run of every number of clients, whatever happens to the datagrams. -/
theorem members_agree {inetAddr : String → BitVec 32} {n : ℕ} {ls : List NetLabel} {net : Net}
    (hr : run (netStep inetAddr) (Net.start n) ls = some net) : Consistent inetAddr net :=
  (run_invariant_of_step (fun _ _ _ => traced_step) (traced_start n) hr).consistent

/-- Two clients create one group each, and the second is asked for by the first. -/
def askedGroup : List NetLabel :=
  [.attempt 0 (.command (.createGroup "a" "239.0.0.1" 5000 ⟨0, 3, 4⟩)),
    .attempt 1 (.command (.createGroup "b" "239.0.0.2" 5001 ⟨0, 3, 4⟩)),
    .search 0 "b" true 40000, .request 1 0, .request 1 0, .reply 0 1 7, .found 0 true ⟨1, 5, 6⟩]

theorem members_agree_askedGroup : ∃ net, run (netStep twoAddresses) (Net.start 2) askedGroup =
    some net ∧ net.created.length = 2 ∧ Consistent twoAddresses net := by
  obtain ⟨net, hr, hlen⟩ := Option.map_eq_some_iff.1 (show (run (netStep twoAddresses)
    (Net.start 2) askedGroup).map (fun net => net.created.length) = some 2 by decide)
  exact ⟨net, hr, hlen, members_agree hr⟩

/-! ## Joining a group of another client -/

section Join

variable {inetAddr : String → BitVec 32} {net : Net} {mc mc' : GroupList} {js js' : List Joined}
  {l l' : List (ℕ × Group)} {j : Joined}

/-- A client answers with the group it has. -/
theorem Represents.handleFindGroupReq_eq (h : Represents mc js l) (hj : j ∈ js) :
    handleFindGroupReq mc j.name = some (some ⟨findGroupReply, j.name, j.ip, j.port⟩) := by
  unfold handleFindGroupReq
  rw [h.findGroupByName_eq]
  cases hx : l.find? fun x => x.2.name == j.name with
  | none =>
    rw [← h.joined] at hj
    obtain ⟨x, hx', rfl⟩ := List.mem_map.1 hj
    exact absurd (by simp [Group.joined]) (List.find?_eq_none.1 hx x hx')
  | some x =>
    have hmem := List.mem_of_find?_eq_some hx
    have hname : x.2.name = j.name := by simpa using List.find?_some hx
    have hxj : x.2.joined ∈ js := h.joined ▸ List.mem_map_of_mem (f := fun x => x.2.joined) hmem
    have heq : x.2.joined = j := List.inj_on_of_nodup_map h.names hxj hj hname
    obtain ⟨n, hn, hdata⟩ := h.list.seg.exists_cell hmem
    simp [hn, hdata, ← heq, Group.joined]

theorem Represents.findGroupByName_of_forall_ne (h : Represents mc js l) {name : String}
    (hne : ∀ i ∈ js, i.name ≠ name) : mc.findGroupByName name = some none := by
  have hfind : l.find? (fun x => x.2.name == name) = none := by
    refine List.find?_eq_none.2 fun x hx => ?_
    have hxj : x.2.joined ∈ js := h.joined ▸ List.mem_map_of_mem (f := fun x => x.2.joined) hx
    simpa [Group.joined] using hne _ hxj
  rw [h.findGroupByName_eq, hfind]
  rfl

/-- `main` joins the group of a reply if its name and address are new. -/
theorem exists_joinGroup (inetAddr : String → BitVec 32) (h : Represents mc js l)
    (hnew : ∀ i ∈ js, i.name ≠ j.name ∧ ¬(i.ip = j.ip ∧ i.port = j.port)) :
    ∃ new mc' l', tryStep inetAddr (.running mc js)
        (joinAttempt j.name ⟨j.name, j.ip, j.port⟩ true new) = some (.running mc' (js ++ [j])) ∧
      Represents mc' (js ++ [j]) l' := by
  have hfree : mc.heap.cells (⟨mc.heap.bound, 0, 0⟩ : Fresh).block = none :=
    mc.heap.cells_of_bound_le _ le_rfl
  have hadd : addJoined js j = js ++ [j] := by
    refine if_neg ?_
    simp only [Bool.or_eq_true, List.any_eq_true, beq_iff_eq, Bool.and_eq_true, not_or]
    exact ⟨fun ⟨i, hi, hname⟩ => (hnew i hi).1 hname, fun ⟨i, hi, haddr⟩ => (hnew i hi).2 haddr⟩
  obtain ⟨mc', l', hrun, h'⟩ := createAndJoin_spec inetAddr h j.name j.ip j.port hfree
  have hnone := h.findGroupByName_of_forall_ne fun i hi => (hnew i hi).1
  have hany : (js.any fun i => i.name == j.name) = false := by
    simpa using fun i hi => (hnew i hi).1
  refine ⟨⟨mc.heap.bound, 0, 0⟩, mc', l', ?_, hadd ▸ h'⟩
  simp [joinAttempt, tryStep, step, Command.allocates, hfree, runCommand, handleFindGroupCmd, hnone,
    Option.filter, hrun, joinedAfter, hany, hadd]

end Join

end NetProg.GroupChat
