import NetProg.MsgQueue.Chat

/-!
# Conversations do not mix

All routing is by the types of messages. `EntryOk` says for each kind of message on each
queue what its type is : on the server queue 1, 2, 5, 7 or the `cid + 5000` of its receiver,
and on a client queue 6, 8, the `gid + 5000` of a group or the `cid + 10000` of the other
side of a conversation. There are at most 1024 groups, so the types of groups end before
those of clients begin, and the type of a message tells its kind, its group and its sender.

The types do not name the user on whose queue a message is. The conversations do not mix when
no queue serves two users, or a user and the server, and only then (`takesOwn_iff`).
-/

namespace NetProg.MsgQueue

/-- Each user has a queue, and none is the queue of the server. -/
structure Queues.Apart (queues : Queues) : Prop where
  server : ∀ uid, IsUid uid → queues.client uid ≠ queues.server
  client : Set.InjOn queues.client {uid | IsUid uid}

/-- Queues of the server and of the users, by their numbers. -/
def ownQueues : Queues :=
  ⟨0, fun uid => uid.toNat + 1⟩

theorem apart_ownQueues : ownQueues.Apart where
  server uid _ := Nat.succ_ne_zero uid.toNat
  client u hu v hv heq := by
    have hnat : u.toNat = v.toNat := Nat.succ.inj heq
    have := hu.1
    have := hv.1
    omega

namespace Chat

variable {s s' : Chat}

/-- The message is a copy of one that was sent. -/
def IsCopy (written : List Message) (msg : Message) : Prop :=
  { msg with mtype := 0 } ∈ written

/-- What can be on a queue, or on its way there. -/
inductive EntryOk (reg : Registry) (written : List Message) : Entry → Prop where
  | toServer (type : MessageType) (msg : Message) (hcopy : IsCopy written msg)
    (hprotocol : msg.protocol = type.protocol) (hmtype : msg.mtype = type.protocol) :
    EntryOk reg written (.server, .chat msg)
  | toMember (uid : ℤ) (huid : IsUid uid) (msg : Message) (hcopy : IsCopy written msg)
    (hprotocol : msg.protocol = groupMessage) (hdst : reg.HasGroup msg.dst)
    (hmtype : msg.mtype = uid + 5000) : EntryOk reg written (.server, .chat msg)
  | toClient (msg : Message) (hdst : IsUid msg.dst) (hcopy : IsCopy written msg)
    (hprotocol : msg.protocol = clientMessage) (hmtype : msg.mtype = msg.dst + 5000) :
    EntryOk reg written (.server, .chat msg)
  | query (query : QueryRequest) : EntryOk reg written (.server, .query query)
  | control (cmsg : ControlMessage) (hsrc : IsUid cmsg.src) :
    EntryOk reg written (.server, .control cmsg)
  | ofGroup (uid : ℤ) (huid : IsUid uid) (msg : Message) (hcopy : IsCopy written msg)
    (hprotocol : msg.protocol = groupMessage) (hdst : reg.HasGroup msg.dst)
    (hmtype : msg.mtype = 5000 + msg.dst) : EntryOk reg written (.client uid, .chat msg)
  | ofClient (msg : Message) (huid : IsUid msg.dst) (hcopy : IsCopy written msg)
    (hprotocol : msg.protocol = clientMessage) (hsrc : IsUid msg.src)
    (hmtype : msg.mtype = 10000 + msg.src) : EntryOk reg written (.client msg.dst, .chat msg)
  | own (msg : Message) (huid : IsUid msg.src) (hcopy : IsCopy written msg)
    (hprotocol : msg.protocol = clientMessage) (hdst : msg.dst = -1 ∨ IsUid msg.dst)
    (hmtype : msg.mtype = msg.dst + 10000) : EntryOk reg written (.client msg.src, .chat msg)
  | queryResponse (q : ℤ) (qres : QueryResponse) :
    EntryOk reg written (.clt q, .queryResponse qres)
  | controlResponse (q : ℤ) (cres : ControlResponse) :
    EntryOk reg written (.clt q, .controlResponse cres)

/-- What the loop of `send_group_message` has : a copy of a message to a group that exists. -/
structure ForwardOk (reg : Registry) (written : List Message) (msg : Message) : Prop where
  copy : IsCopy written msg
  protocol : msg.protocol = groupMessage
  dst : reg.HasGroup msg.dst

structure Inv (s : Chat) : Prop where
  apart : s.queues.Apart
  wellFormed : s.reg.WellFormed
  room : s.reg.groups.length ≤ maxEntries
  cids : ∀ cid ∈ s.reg.cids, IsUid cid
  written : ∀ w ∈ s.written, IsUid w.src
  forwarding : ∀ f ∈ s.forwarding, ForwardOk s.reg s.written f.msg
  entries : ∀ e ∈ s.entries, EntryOk s.reg s.written e

theorem inv_start {queues : Queues} (h : queues.Apart) : Inv (start queues) where
  apart := h
  wellFormed := Registry.wellFormed_init
  room := Nat.zero_le _
  cids _ h := absurd h List.not_mem_nil
  written _ h := absurd h List.not_mem_nil
  forwarding _ h := by cases h
  entries _ h := absurd h List.not_mem_nil

/-! ## The server's arrays grow -/

/-- `reg'` has the groups of `reg` and perhaps more. -/
theorem hasGroup_mono {reg reg' : Registry} (h : reg.groups.length ≤ reg'.groups.length) {gid : ℤ}
    (hgid : reg.HasGroup gid) : reg'.HasGroup gid :=
  ⟨hgid.1, hgid.2.trans_le (by exact_mod_cast h)⟩

theorem EntryOk.mono {reg reg' : Registry} {written written' : List Message} {e : Entry}
    (h : EntryOk reg written e) (hreg : reg.groups.length ≤ reg'.groups.length)
    (hwritten : written ⊆ written') : EntryOk reg' written' e := by
  cases h with
  | toServer type msg hcopy hprotocol hmtype =>
    exact .toServer type msg (hwritten hcopy) hprotocol hmtype
  | toMember uid huid msg hcopy hprotocol hdst hmtype =>
    exact .toMember uid huid msg (hwritten hcopy) hprotocol (hasGroup_mono hreg hdst) hmtype
  | toClient msg hdst hcopy hprotocol hmtype =>
    exact .toClient msg hdst (hwritten hcopy) hprotocol hmtype
  | query query => exact .query query
  | control cmsg hsrc => exact .control cmsg hsrc
  | ofGroup uid huid msg hcopy hprotocol hdst hmtype =>
    exact .ofGroup uid huid msg (hwritten hcopy) hprotocol (hasGroup_mono hreg hdst) hmtype
  | ofClient msg huid hcopy hprotocol hsrc hmtype =>
    exact .ofClient msg huid (hwritten hcopy) hprotocol hsrc hmtype
  | own msg huid hcopy hprotocol hdst hmtype =>
    exact .own msg huid (hwritten hcopy) hprotocol hdst hmtype
  | queryResponse q qres => exact .queryResponse q qres
  | controlResponse q cres => exact .controlResponse q cres

theorem ForwardOk.mono {reg reg' : Registry} {written written' : List Message} {msg : Message}
    (h : ForwardOk reg written msg) (hreg : reg.groups.length ≤ reg'.groups.length)
    (hwritten : written ⊆ written') : ForwardOk reg' written' msg :=
  ⟨hwritten h.copy, h.protocol, hasGroup_mono hreg h.dst⟩

/-- What a control message of a user makes of the arrays. -/
theorem grows_of_controlled {reg reg' : Registry} {cmsg : ControlMessage} {queue : ℤ}
    {garbage : Garbage} {cres : ControlResponse}
    (hc : Registry.Controlled reg cmsg queue garbage reg' cres) :
    reg.groups.length ≤ reg'.groups.length ∧
      (reg.groups.length ≤ maxEntries → reg'.groups.length ≤ maxEntries) ∧
        ∀ cid ∈ reg'.cids, cid ∈ reg.cids ∨ cid = cmsg.src := by
  cases hc with
  | known | failed | refused => exact ⟨le_rfl, id, fun cid h => .inl h⟩
  | registered hact hknown hqueue hroom c hcid =>
    refine ⟨le_rfl, id, fun cid h => ?_⟩
    simp only [Registry.cids, List.map_append, List.map_cons, List.map_nil, List.mem_append,
      List.mem_singleton] at h ⊢
    exact h.imp_right fun heq => heq.trans hcid
  | joined hact hclt hgroup hjoins =>
    rw [hjoins.groups_eq, List.length_set, hjoins.cids_eq]
    exact ⟨le_rfl, id, fun cid h => .inl h⟩
  | created hact hclt hroom hjoins =>
    rw [hjoins.groups_eq, List.length_set, hjoins.cids_eq]
    simp only [Registry.addGroup, List.length_append, List.length_singleton]
    exact ⟨by omega, fun _ => by omega, fun cid h => .inl h⟩

/-! ## Names of a queue -/

/-- A process can take messages from the queue under this name. -/
def Owned : Queue → Prop
  | .server => True
  | .client uid => IsUid uid
  | .clt _ => False

/-- An answer of the server. -/
def IsAnswer : Item → Prop
  | .queryResponse _ | .controlResponse _ => True
  | .chat _ | .query _ | .control _ => False

theorem mtype_of_isAnswer {item : Item} (h : IsAnswer item) :
    item.mtype = queryResponseType ∨ item.mtype = controlResponseType := by
  cases item with
  | queryResponse qres => exact .inl rfl
  | controlResponse cres => exact .inr rfl
  | chat | query | control => cases h

/-- What is no answer is put on a queue under such a name. -/
theorem EntryOk.owned {reg : Registry} {written : List Message} {q : Queue} {item : Item}
    (h : EntryOk reg written (q, item)) (hitem : ¬IsAnswer item) : Owned q := by
  cases h with
  | toServer | toMember | toClient | query | control => trivial
  | ofGroup uid huid => exact huid
  | ofClient msg huid => exact huid
  | own msg huid => exact huid
  | queryResponse | controlResponse => exact absurd trivial hitem

/-- Queues that are apart have one such name. -/
theorem eq_of_msqid {queues : Queues} (h : queues.Apart) {q q' : Queue} (hq : Owned q)
    (hq' : Owned q') (heq : queues.msqid q' = queues.msqid q) : q' = q := by
  cases q with
  | server =>
    cases q' with
    | server => rfl
    | client uid' => exact absurd (Int.ofNat.inj heq) (h.server uid' hq')
    | clt queue' => cases hq'
  | client uid =>
    cases q' with
    | server => exact absurd (Int.ofNat.inj heq).symm (h.server uid hq)
    | client uid' => exact congrArg Queue.client (h.client hq' hq (Int.ofNat.inj heq))
    | clt queue' => cases hq'
  | clt queue => cases hq

/-- What is on a queue, and no answer, was put there under the name of the queue. -/
theorem Inv.mem_of_on (h : Inv s) {q : Queue} {item : Item} (hon : s.On q item) (hq : Owned q)
    (hitem : ¬IsAnswer item) : (q, item) ∈ s.msgs := by
  obtain ⟨q', heq, hmem⟩ := hon
  have hq' := (h.entries _ (List.mem_append_left _ hmem)).owned hitem
  rwa [eq_of_msqid h.apart hq hq' heq] at hmem

theorem Inv.entryOk_of_on (h : Inv s) {q : Queue} {item : Item} (hon : s.On q item) (hq : Owned q)
    (hitem : ¬IsAnswer item) : EntryOk s.reg s.written (q, item) :=
  h.entries _ (List.mem_append_left _ (h.mem_of_on hon hq hitem))

/-! ## What a step sends -/

section Sends

variable {reg : Registry} {written written' : List Message} {msg : Message} {l : Label}

theorem protocol_pos (type : MessageType) : 1 ≤ type.protocol ∧ type.protocol ≤ 2 := by
  cases type <;> decide

/-- A message that a sender has put on the server queue. -/
theorem EntryOk.unhandled (h : EntryOk reg written (.server, .chat msg))
    (hmtype : msg.mtype = clientMessage ∨ msg.mtype = groupMessage) :
    IsCopy written msg ∧ msg.protocol = msg.mtype := by
  simp only [clientMessage, groupMessage] at hmtype
  cases h with
  | toServer type msg hcopy hprotocol hm => exact ⟨hcopy, hprotocol.trans hm.symm⟩
  | toMember uid huid msg hcopy hprotocol hdst hm =>
    have := huid.1
    omega
  | toClient msg hdst hcopy hprotocol hm =>
    have := hdst.1
    omega

/-- A message that the server has put there for a receiver. -/
theorem EntryOk.forwarded (h : EntryOk reg written (.server, .chat msg)) {uid : ℤ}
    (huid : IsUid uid) (hmtype : msg.mtype = uid + 5000) : IsCopy written msg ∧
      (msg.protocol = groupMessage ∧ reg.HasGroup msg.dst ∨
        msg.protocol = clientMessage ∧ msg.dst = uid) := by
  cases h with
  | toServer type msg hcopy hprotocol hm =>
    have := huid.1
    have := protocol_pos type
    omega
  | toMember uid' huid' msg hcopy hprotocol hdst hm => exact ⟨hcopy, .inl ⟨hprotocol, hdst⟩⟩
  | toClient msg hdst hcopy hprotocol hm => exact ⟨hcopy, .inr ⟨hprotocol, by omega⟩⟩

/-- What a step sends is as it should be. -/
theorem Inv.entryOk (h : Inv s) (henabled : s.Enabled l) {e : Entry} (hs : Sends s l e)
    (hsub : s.written ⊆ written')
    (hnew : ∀ uid pid type msg, l = .sendMessage uid pid type msg →
      { msg with mtype := 0, protocol := type.protocol, src := uid } ∈ written') :
    EntryOk s.reg written' e := by
  have hserver : ∀ msg, s.On .server (.chat msg) →
      EntryOk s.reg written' (.server, .chat msg) := fun msg hon =>
    (h.entryOk_of_on hon trivial id).mono le_rfl hsub
  cases hs with
  | own uid pid msg =>
    obtain ⟨-, huid, hdst, -⟩ := henabled
    exact .own { msg with
      mtype := msg.dst + 10000, protocol := clientMessage, src := uid } huid
      (hnew uid pid .client msg rfl) rfl hdst rfl
  | toServer uid pid type msg => exact .toServer type _ (hnew uid pid type msg rfl) rfl rfl
  | control uid pid cmsg =>
    obtain ⟨-, huid, hsrc⟩ := henabled
    exact .control cmsg (hsrc ▸ huid)
  | query uid pid query => exact .query query
  | toMember f hf cid hcid =>
    have hforward := (h.forwarding f hf).mono le_rfl hsub
    exact .toMember cid (h.cids cid hcid) _ hforward.copy hforward.protocol hforward.dst rfl
  | toClient msg hmem hmtype hcid =>
    obtain ⟨hcopy, hprotocol⟩ := (hserver _ hmem).unhandled (.inl hmtype)
    have hsame : { msg with protocol := clientMessage, mtype := msg.dst + 5000 } =
        { msg with mtype := msg.dst + 5000 } := by
      rw [← hmtype, ← hprotocol]
    rw [hsame]
    exact .toClient _ (h.cids _ hcid) hcopy (hprotocol.trans hmtype) rfl
  | queryResponse q qres => exact .queryResponse q qres
  | controlResponse queue garbage q cres => exact .controlResponse q cres
  | ofGroup uid pid msg hmem hmtype hlive hprotocol =>
    obtain ⟨hcopy, hkind⟩ := (hserver _ hmem).forwarded henabled.2 hmtype
    rcases hkind with ⟨-, hdst⟩ | ⟨hclient, -⟩
    · exact .ofGroup uid henabled.2 _ hcopy hprotocol hdst rfl
    · exact absurd (hprotocol.symm.trans hclient) (by decide)
  | ofClient uid pid msg hmem hmtype hlive hprotocol =>
    obtain ⟨hcopy, hkind⟩ := (h.entryOk_of_on hmem trivial id).forwarded henabled.2 hmtype
    rcases hkind with ⟨hgroup, -⟩ | ⟨-, rfl⟩
    · exact absurd (hprotocol.symm.trans hgroup) (by decide)
    · have hsrc : IsUid msg.src := h.written { msg with mtype := 0 } hcopy
      exact .ofClient { msg with mtype := 10000 + msg.src } henabled.2 (hsub hcopy) hprotocol hsrc
        rfl

end Sends

/-! ## Runs -/

theorem enabled_of_chatStep {l : Label} (h : chatStep s l = some s') : s.Enabled l := by
  unfold chatStep at h
  split at h
  · assumption
  · cases h

/-- What a step makes of the arrays of the server. -/
theorem Inv.grows (h : Inv s) {l : Label} (hs : Steps s l s') :
    s'.reg.WellFormed ∧ s.reg.groups.length ≤ s'.reg.groups.length ∧
      s'.reg.groups.length ≤ maxEntries ∧ ∀ cid ∈ s'.reg.cids, IsUid cid := by
  rcases hs.reg with heq | ⟨cmsg, queue, garbage, q, cres, hmem, hreg⟩
  · rw [heq]
    exact ⟨h.wellFormed, le_rfl, h.room, h.cids⟩
  have hcontrolled := h.wellFormed.controlled (Registry.handleControlMsgs_eq_some_iff.1 hreg).1
  obtain ⟨hgrows, hroom, hcids⟩ := grows_of_controlled hcontrolled
  refine ⟨hcontrolled.wellFormed h.wellFormed, hgrows, hroom h.room, fun cid hcid => ?_⟩
  rcases hcids cid hcid with hold | rfl
  · exact h.cids cid hold
  · cases h.entryOk_of_on hmem trivial id with
    | control _ hsrc => exact hsrc

theorem inv_step {l : Label} (h : Inv s) (hs : chatStep s l = some s') : Inv s' := by
  have henabled := enabled_of_chatStep hs
  have hsteps := steps_of_chatStep hs
  obtain ⟨hwellFormed, hgrows, hroom, hcids⟩ := h.grows hsteps
  have hsub : s.written ⊆ s'.written := by
    rcases hsteps.written with heq | ⟨uid, pid, type, msg, -, heq⟩
    · rw [heq]
      exact List.Subset.refl _
    · rw [heq]
      exact List.subset_cons_self _ _
  have hnew : ∀ uid pid type msg, l = .sendMessage uid pid type msg →
      { msg with mtype := 0, protocol := type.protocol, src := uid } ∈ s'.written := by
    rintro uid pid type msg rfl
    rw [chatStep, if_pos henabled] at hs
    obtain rfl := Option.some.inj hs
    exact List.mem_cons_self
  refine ⟨hsteps.queues ▸ h.apart, hwellFormed, hroom, hcids, ?_, fun f hf => ?_,
    fun e he => ?_⟩
  · rcases hsteps.written with heq | ⟨uid, pid, type, msg, rfl, heq⟩
    · rw [heq]
      exact h.written
    · rw [heq]
      exact List.forall_mem_cons.2 ⟨henabled.2.1, h.written⟩
  · rcases hsteps.forwarding f hf with ⟨f', hf', heq⟩ | ⟨msg, grp, hmem, hmtype, hgrp, heq⟩
    · rw [heq]
      exact (h.forwarding f' hf').mono hgrows hsub
    · obtain ⟨hcopy, hprotocol⟩ :=
        (h.entryOk_of_on hmem trivial id).unhandled (.inr hmtype)
      have hsame : { msg with protocol := groupMessage } = msg :=
        congrArg (fun p => { msg with protocol := p }) (hprotocol.trans hmtype).symm
      rw [heq, hsame]
      exact ⟨hsub hcopy, hprotocol.trans hmtype,
        hasGroup_mono hgrows (h.wellFormed.findGroupById_eq_some_some.1 hgrp).1⟩
  · rcases hsteps.entries e he with hold | hsends
    · exact (h.entries e hold).mono hgrows hsub
    · exact (h.entryOk henabled hsends hsub hnew).mono hgrows (List.Subset.refl _)

/-! ## What is received -/

/-- What the step takes from a queue. -/
def taken (s : Chat) (l : Label) : Option Item :=
  let rcv (q : Queue) (mtype : ℤ) := (s.msgrcv q mtype).map Prod.fst
  match l with
  | .handleGroupSendMsgs => rcv .server groupMessage
  | .handleClientSendMsgs => rcv .server clientMessage
  | .handleQueries => rcv .server queryRequestType
  | .handleControlMsgs _ _ => rcv .server controlType
  | .handleMessages uid _ => rcv .server (uid + 5000)
  | .read uid _ target => rcv (.client uid) target.mtype
  | .receiveControl uid _ => rcv (.client uid) controlResponseType
  | .receiveQuery uid _ => rcv (.client uid) queryResponseType
  | _ => none

/-- What each receive is for : a loop for the conversation that it reads, and the others for
messages of their kind. -/
inductive Fits (written : List Message) : Label → Item → Prop where
  | group (uid : ℤ) (pid : ℕ) (msg : Message) (hsent : IsCopy written msg)
    (hprotocol : msg.protocol = groupMessage) :
    Fits written (.read uid pid (.group msg.dst)) (.chat msg)
  | received (pid : ℕ) (msg : Message) (hsent : IsCopy written msg)
    (hprotocol : msg.protocol = clientMessage) :
    Fits written (.read msg.dst pid (.client msg.src)) (.chat msg)
  | sent (pid : ℕ) (msg : Message) (hsent : IsCopy written msg)
    (hprotocol : msg.protocol = clientMessage) :
    Fits written (.read msg.src pid (.client msg.dst)) (.chat msg)
  | handleGroupSendMsgs (msg : Message) : Fits written .handleGroupSendMsgs (.chat msg)
  | handleClientSendMsgs (msg : Message) : Fits written .handleClientSendMsgs (.chat msg)
  | handleQueries (query : QueryRequest) : Fits written .handleQueries (.query query)
  | handleControlMsgs (queue : ℤ) (garbage : Garbage) (cmsg : ControlMessage) :
    Fits written (.handleControlMsgs queue garbage) (.control cmsg)
  | handleMessages (uid : ℤ) (pid : ℕ) (msg : Message) :
    Fits written (.handleMessages uid pid) (.chat msg)
  | receiveControl (uid : ℤ) (pid : ℕ) (cres : ControlResponse) :
    Fits written (.receiveControl uid pid) (.controlResponse cres)
  | receiveQuery (uid : ℤ) (pid : ℕ) (qres : QueryResponse) :
    Fits written (.receiveQuery uid pid) (.queryResponse qres)

/-- A step that can be made takes what it is for. -/
def TakesOwn (s : Chat) (l : Label) : Prop :=
  s.Enabled l → ∀ item ∈ s.taken l, Fits s.written l item

theorem on_of_msgrcv {q : Queue} {t : ℤ} {item : Item}
    (h : item ∈ (s.msgrcv q t).map Prod.fst) : s.On q item ∧ item.mtype = t := by
  obtain ⟨⟨item', s'⟩, hrcv, rfl⟩ := Option.map_eq_some_iff.1 h
  obtain ⟨hon, hmtype, -⟩ := exists_of_msgrcv hrcv
  exact ⟨hon, hmtype⟩

/-- A receive takes a message with its type, and if it does not ask for an answer, one that was
put on the queue under its name. -/
theorem Inv.entryOk_of_msgrcv (h : Inv s) {q : Queue} {t : ℤ} {item : Item}
    (hrcv : item ∈ (s.msgrcv q t).map Prod.fst) (hq : Owned q)
    (ht : t ≠ queryResponseType ∧ t ≠ controlResponseType) :
    EntryOk s.reg s.written (q, item) ∧ item.mtype = t := by
  obtain ⟨hon, rfl⟩ := on_of_msgrcv hrcv
  have hitem : ¬IsAnswer item := fun hanswer => (mtype_of_isAnswer hanswer).elim ht.1 ht.2
  exact ⟨h.entryOk_of_on hon hq hitem, rfl⟩

section Receives

variable {reg : Registry} {written : List Message} {item : Item} {uid : ℤ} {pid : ℕ}

theorem EntryOk.read_group (h : EntryOk reg written (.client uid, item))
    (hroom : reg.groups.length ≤ maxEntries) {gid : ℤ} (hgid : reg.HasGroup gid)
    (hmtype : item.mtype = gid + 5000) : Fits written (.read uid pid (.group gid)) item := by
  obtain ⟨hnonneg, hlt⟩ := hgid
  rw [maxEntries] at hroom
  cases h with
  | ofGroup uid huid msg hcopy hprotocol hdst hm =>
    obtain rfl : msg.dst = gid := by
      have : msg.mtype = gid + 5000 := hmtype
      omega
    exact .group uid pid msg hcopy hprotocol
  | ofClient msg huid hcopy hprotocol hsrc hm =>
    have : msg.mtype = gid + 5000 := hmtype
    have := hsrc.1
    omega
  | own msg huid hcopy hprotocol hdst hm =>
    have : msg.mtype = gid + 5000 := hmtype
    have : -1 ≤ msg.dst := hdst.elim (fun h => h.ge) fun h => by
      have := h.1
      omega
    omega

theorem EntryOk.read_client (h : EntryOk reg written (.client uid, item))
    (hroom : reg.groups.length ≤ maxEntries) {cid : ℤ} (hcid : IsUid cid)
    (hmtype : item.mtype = cid + 10000) : Fits written (.read uid pid (.client cid)) item := by
  have hnonneg := hcid.1
  rw [maxEntries] at hroom
  cases h with
  | ofGroup uid huid msg hcopy hprotocol hdst hm =>
    have : msg.mtype = cid + 10000 := hmtype
    have := hdst.2
    omega
  | ofClient msg huid hcopy hprotocol hsrc hm =>
    obtain rfl : msg.src = cid := by
      have : msg.mtype = cid + 10000 := hmtype
      omega
    exact .received pid msg hcopy hprotocol
  | own msg huid hcopy hprotocol hdst hm =>
    obtain rfl : msg.dst = cid := by
      have : msg.mtype = cid + 10000 := hmtype
      omega
    exact .sent pid msg hcopy hprotocol

/-- The types of chat messages on a client queue. -/
theorem EntryOk.le_mtype {msg : Message} (h : EntryOk reg written (.client uid, .chat msg)) :
    5000 ≤ msg.mtype := by
  cases h with
  | ofGroup uid huid msg hcopy hprotocol hdst hm =>
    have := hdst.1
    omega
  | ofClient msg huid hcopy hprotocol hsrc hm =>
    have := hsrc.1
    omega
  | own msg huid hcopy hprotocol hdst hm =>
    rcases hdst with hdst | ⟨hdst, -⟩ <;> omega

theorem ne_answer_of_le {t : ℤ} (h : 5000 ≤ t) :
    t ≠ queryResponseType ∧ t ≠ controlResponseType := by
  rw [queryResponseType, controlResponseType]
  omega

/-- What has the type of an answer and is on a client queue is an answer. -/
theorem Inv.isAnswer_of_on (h : Inv s) (huid : IsUid uid) (hon : s.On (.client uid) item)
    (hmtype : item.mtype ≤ 10) : IsAnswer item := by
  by_contra hitem
  have hok := h.entryOk_of_on hon huid hitem
  cases item with
  | chat msg =>
    have := hok.le_mtype
    have : msg.mtype ≤ 10 := hmtype
    omega
  | queryResponse | controlResponse => exact hitem trivial
  | query | control => cases hok

/-- The types of messages on the server queue. -/
theorem EntryOk.server_cases (h : EntryOk reg written (.server, item)) :
    (∃ msg, item = .chat msg ∧
      (item.mtype = clientMessage ∨ item.mtype = groupMessage ∨ 5000 ≤ item.mtype)) ∨
      (∃ query, item = .query query) ∨ ∃ cmsg, item = .control cmsg := by
  cases h with
  | toServer type msg hcopy hprotocol hm =>
    refine .inl ⟨msg, rfl, ?_⟩
    cases type with
    | client => exact .inl hm
    | group => exact .inr (.inl hm)
  | toMember uid huid msg hcopy hprotocol hdst hm =>
    have hle : 5000 ≤ msg.mtype := by
      have := huid.1
      omega
    exact .inl ⟨msg, rfl, .inr (.inr hle)⟩
  | toClient msg hdst hcopy hprotocol hm =>
    have hle : 5000 ≤ msg.mtype := by
      have := hdst.1
      omega
    exact .inl ⟨msg, rfl, .inr (.inr hle)⟩
  | query query => exact .inr (.inl ⟨query, rfl⟩)
  | control cmsg hsrc => exact .inr (.inr ⟨cmsg, rfl⟩)

/-- What is no request is a chat message. -/
theorem EntryOk.exists_chat (h : EntryOk reg written (.server, item))
    (hquery : item.mtype ≠ queryRequestType) (hcontrol : item.mtype ≠ controlType) :
    ∃ msg, item = .chat msg := by
  rcases h.server_cases with ⟨msg, rfl, -⟩ | ⟨query, rfl⟩ | ⟨cmsg, rfl⟩
  · exact ⟨msg, rfl⟩
  · exact absurd rfl hquery
  · exact absurd rfl hcontrol

theorem EntryOk.exists_query (h : EntryOk reg written (.server, item))
    (hmtype : item.mtype = queryRequestType) : ∃ query, item = .query query := by
  rcases h.server_cases with ⟨msg, rfl, hm⟩ | ⟨query, rfl⟩ | ⟨cmsg, rfl⟩
  · rw [hmtype] at hm
    exact absurd hm (by decide)
  · exact ⟨query, rfl⟩
  · exact absurd (show (7 : ℤ) = 5 from hmtype) (by decide)

theorem EntryOk.exists_control (h : EntryOk reg written (.server, item))
    (hmtype : item.mtype = controlType) : ∃ cmsg, item = .control cmsg := by
  rcases h.server_cases with ⟨msg, rfl, hm⟩ | ⟨query, rfl⟩ | ⟨cmsg, rfl⟩
  · rw [hmtype] at hm
    exact absurd hm (by decide)
  · exact absurd (show (5 : ℤ) = 7 from hmtype) (by decide)
  · exact ⟨cmsg, rfl⟩

end Receives

theorem Inv.takesOwn (h : Inv s) (l : Label) : TakesOwn s l := by
  intro henabled item hitem
  cases l with
  | tick | flush | fail | sendToMember | control | query | sendMessage => cases hitem
  | handleGroupSendMsgs =>
    obtain ⟨hok, hmtype⟩ := h.entryOk_of_msgrcv hitem trivial (by decide)
    obtain ⟨msg, rfl⟩ := hok.exists_chat (by rw [hmtype]; decide) (by rw [hmtype]; decide)
    exact .handleGroupSendMsgs msg
  | handleClientSendMsgs =>
    obtain ⟨hok, hmtype⟩ := h.entryOk_of_msgrcv hitem trivial (by decide)
    obtain ⟨msg, rfl⟩ := hok.exists_chat (by rw [hmtype]; decide) (by rw [hmtype]; decide)
    exact .handleClientSendMsgs msg
  | handleQueries =>
    obtain ⟨hok, hmtype⟩ := h.entryOk_of_msgrcv hitem trivial (by decide)
    obtain ⟨query, rfl⟩ := hok.exists_query hmtype
    exact .handleQueries query
  | handleControlMsgs queue garbage =>
    obtain ⟨hok, hmtype⟩ := h.entryOk_of_msgrcv hitem trivial (by decide)
    obtain ⟨cmsg, rfl⟩ := hok.exists_control hmtype
    exact .handleControlMsgs queue garbage cmsg
  | handleMessages uid pid =>
    have hle : 5000 ≤ uid + 5000 := by
      have := henabled.2.1
      omega
    obtain ⟨hok, hmtype⟩ := h.entryOk_of_msgrcv hitem trivial (ne_answer_of_le hle)
    rw [← hmtype] at hle
    obtain ⟨msg, rfl⟩ := hok.exists_chat
      (fun hquery => absurd (hquery ▸ hle) (by decide))
      (fun hcontrol => absurd (hcontrol ▸ hle) (by decide))
    exact .handleMessages uid pid msg
  | read uid pid target =>
    cases target with
    | group gid =>
      have hle : 5000 ≤ gid + 5000 := by
        have := henabled.2.2.1
        omega
      obtain ⟨hok, hmtype⟩ := h.entryOk_of_msgrcv hitem henabled.2.1 (ne_answer_of_le hle)
      exact hok.read_group h.room henabled.2.2 hmtype
    | client cid =>
      have hle : 5000 ≤ cid + 10000 := by
        have := henabled.2.2.1
        omega
      obtain ⟨hok, hmtype⟩ := h.entryOk_of_msgrcv hitem henabled.2.1 (ne_answer_of_le hle)
      exact hok.read_client h.room henabled.2.2 hmtype
  | receiveControl uid pid =>
    obtain ⟨hon, hmtype⟩ := on_of_msgrcv hitem
    have hanswer := h.isAnswer_of_on henabled.2 hon (by rw [hmtype]; decide)
    cases item with
    | controlResponse cres => exact .receiveControl uid pid cres
    | queryResponse qres => exact absurd (show (6 : ℤ) = 8 from hmtype) (by decide)
    | chat | query | control => cases hanswer
  | receiveQuery uid pid =>
    obtain ⟨hon, hmtype⟩ := on_of_msgrcv hitem
    have hanswer := h.isAnswer_of_on henabled.2 hon (by rw [hmtype]; decide)
    cases item with
    | queryResponse qres => exact .receiveQuery uid pid qres
    | controlResponse cres => exact absurd (show (8 : ℤ) = 6 from hmtype) (by decide)
    | chat | query | control => cases hanswer

/-- With queues that are apart, each step of a run takes what it is for. -/
theorem takesOwn_of_apart {queues : Queues} (h : queues.Apart) (ls : List Label) :
    StepsMeet chatStep TakesOwn (start queues) ls :=
  StepsMeet.imp (I := Inv) (c := fun _ _ => True) (fun _ _ _ h _ hs => inv_step h hs)
    (fun _ l h _ => h.takesOwn l) (inv_start h)
    (stepsMeet_of_forall (fun _ _ _ => trivial) (start queues))

/-! ## Queues that are shared -/

section Shared

variable {queues : Queues} {u v : ℤ}

/-- A loop that reads a client is for what the two exchange. -/
theorem Fits.exchanged {written : List Message} {uid cid : ℤ} {pid : ℕ} {msg : Message}
    (h : Fits written (.read uid pid (.client cid)) (.chat msg)) :
    msg.dst = uid ∧ msg.src = cid ∨ msg.src = uid ∧ msg.dst = cid := by
  cases h with
  | received => exact .inl ⟨rfl, rfl⟩
  | sent => exact .inr ⟨rfl, rfl⟩

/-- A text of a user to a client, with a type. -/
def text (mtype src dst : ℤ) : Message :=
  ⟨mtype, clientMessage, src, dst, 0, 0, 0, [], []⟩

/-- A user has put its own copy of a text to a client on its queue. -/
def typedIn (queues : Queues) (u dst : ℤ) : Chat :=
  { start queues with
    msgs := [(.client u, .chat (text (dst + 10000) u dst))]
    hands := [(.main u 0, .server, .chat (text clientMessage u dst))]
    written := [text 0 u dst] }

/-- How it does. -/
def typeIn (u dst : ℤ) : List Label :=
  [.sendMessage u 0 .client (text 0 0 dst), .flush (.main u 0)]

theorem run_typeIn (queues : Queues) {dst : ℤ} (hu : IsUid u) (hdst : IsUid dst) :
    run chatStep (start queues) (typeIn u dst) = some (typedIn queues u dst) := by
  have hfree : ∀ t, (start queues).Free t := fun t => ⟨fun _ => rfl, fun h hh => by cases hh⟩
  have hsent : chatStep (start queues) (.sendMessage u 0 .client (text 0 0 dst)) =
      some ((start queues).sendMessage u 0 .client (text 0 0 dst)) :=
    if_pos ⟨fun t _ => hfree t, hu, .inr hdst, le_rfl⟩
  rw [typeIn, run_cons, hsent]
  simp [run_cons, chatStep, Enabled, Label.thread, perform, flush, Thread.isServer, Lib.receive,
    sendMessage, hold, start, typedIn, text, MessageType.protocol]

/-- User `u` sends a text to itself, and `v` reads what it exchanges with `u`. -/
def readByOther (u v : ℤ) : List Label :=
  typeIn u u ++ [.read v 0 (.client u)]

/-- A user reads the text of another one, if they share a queue. -/
theorem not_takesOwn_readByOther (hu : IsUid u) (hv : IsUid v) (hne : u ≠ v)
    (heq : queues.client u = queues.client v) :
    ¬StepsMeet chatStep TakesOwn (start queues) (readByOther u v) := by
  intro h
  have htakes := (StepsMeet.after (run_typeIn queues hu hu) h).1
  have htaken : (typedIn queues u u).taken (.read v 0 (.client u)) =
      some (.chat (text (u + 10000) u u)) := by
    simp [taken, msgrcv, Lib.receive, Queues.key, Queues.msqid, typedIn, start, Item.mtype, text,
      Target.mtype, heq]
  have hfits := htakes ⟨fun t ht => ?_, hv, hu⟩ _ htaken
  · rcases hfits.exchanged with ⟨hdst, -⟩ | ⟨hsrc, -⟩
    · exact hne hdst
    · exact hne hsrc
  · obtain rfl := Option.some.inj ht
    simp [Free, typedIn, Thread.isServer, hne]

/-- User `u` sends a text to user 0, whose type on the queue of `u` is the one that the router
of user 5000 asks the server for. -/
def routedByOther (u : ℤ) : List Label :=
  typeIn u 0 ++ [.handleMessages 5000 0, .flush (.router 5000 0), .read 5000 1 (.client u)]

/-- The router of user 5000 has moved it to its queue. -/
def misrouted (queues : Queues) (u : ℤ) : Chat :=
  { typedIn queues u 0 with msgs := [(.client 5000, .chat (text (10000 + u) u 0))] }

theorem run_misrouted (hserver : queues.client u = queues.server) :
    run chatStep (typedIn queues u 0) [.handleMessages 5000 0, .flush (.router 5000 0)] =
      some (misrouted queues u) := by
  have hfree : (typedIn queues u 0).Free (.router 5000 0) := by
    simp [Free, typedIn, Thread.isServer]
  have htaken : (typedIn queues u 0).handleMessages 5000 0 = some
      { typedIn queues u 0 with
        msgs := []
        hands := (typedIn queues u 0).hands ++
          [(.router 5000 0, .client 5000, .chat (text (10000 + u) u 0))] } := by
    simp [handleMessages, msgrcv, Lib.receive, Queues.key, Queues.msqid, typedIn, start, Item.mtype,
      text, hserver, Expired, hold, clientMessage, groupMessage]
  have henabled : (typedIn queues u 0).Enabled (.handleMessages 5000 0) :=
    ⟨fun t ht => Option.some.inj ht ▸ hfree, show IsUid 5000 by decide⟩
  rw [run_cons, chatStep, if_pos henabled, perform, htaken]
  simp [run_cons, chatStep, Enabled, Label.thread, perform, flush, Thread.isServer, Lib.receive,
    typedIn, misrouted]

/-- A text is read by a user that it is not for, if its sender has the queue of the server. -/
theorem not_takesOwn_routedByOther (hu : IsUid u) (hserver : queues.client u = queues.server) :
    ¬StepsMeet chatStep TakesOwn (start queues) (routedByOther u) := by
  intro h
  have hmeet := StepsMeet.after (run_typeIn queues hu (by decide)) h
  have htakes := (StepsMeet.after (run_misrouted hserver) hmeet).1
  have htaken : (misrouted queues u).taken (.read 5000 1 (.client u)) =
      some (.chat (text (10000 + u) u 0)) := by
    simp [taken, msgrcv, Lib.receive, Queues.key, Queues.msqid, misrouted, typedIn, start,
      Item.mtype, text, Target.mtype, add_comm]
  have hfits := htakes ⟨fun t ht => ?_, show IsUid 5000 by decide, hu⟩ _ htaken
  · rcases hfits.exchanged with ⟨hdst, -⟩ | ⟨hsrc, hdst⟩
    · exact absurd (show (0 : ℤ) = 5000 from hdst) (by decide)
    · have husrc : u = 5000 := hsrc
      have hudst : 0 = u := hdst
      omega
  · obtain rfl := Option.some.inj ht
    simp [Free, misrouted, typedIn, Thread.isServer]

/-- The conversations do not mix in any run exactly when the queues are apart. -/
theorem takesOwn_iff (queues : Queues) :
    (∀ ls, StepsMeet chatStep TakesOwn (start queues) ls) ↔ queues.Apart := by
  refine ⟨fun h => ⟨fun u hu hserver => ?_, fun u hu v hv heq => ?_⟩, takesOwn_of_apart⟩
  · exact not_takesOwn_routedByOther hu hserver (h _)
  · by_contra hne
    exact not_takesOwn_readByOther hu hv hne heq (h _)

/-- No user has a file, so all have the queue of the key -1. -/
def withoutFiles : Queues :=
  ⟨1, fun _ => 2⟩

/-- User 1001 reads what user 1000 wrote. -/
theorem not_takesOwn_withoutFiles :
    ¬StepsMeet chatStep TakesOwn (start withoutFiles) (readByOther 1000 1001) :=
  not_takesOwn_readByOther (by decide) (by decide) (by decide) rfl

end Shared

end Chat

end NetProg.MsgQueue
