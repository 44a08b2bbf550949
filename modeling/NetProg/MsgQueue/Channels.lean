import NetProg.Lib.Conveyor
import NetProg.MsgQueue.Conversations

/-!
# The way of a conversation

The messages of a user to a client or a group pass three stages : they wait for the server,
they wait with the type of a receiver for its router, and they wait for a loop of the receiver.
A stage is what can be seen of the queues and of the hands with the type of the stage. Each
step conserves the messages of each stage, so as long as the server lives no message of a
conversation is lost or doubled, in any order of steps.

A `msgsnd` that fails loses what the thread has in hand, so this is for runs in which none of
these fails (`Delivers`), and for queues that are apart : then a queue has one name by which
messages are put on it and taken.

A queue keeps the order of the messages of a type, and so does a thread of the messages that
it holds. Two processes of a user can overtake each other. If the sender sends from one
process and one router works for the receiver, the messages are printed in the order in which
they were written.
-/

namespace NetProg.MsgQueue

open Lib (Keeps)

/-- The chat message. -/
def Item.chat? : Item → Option Message
  | .chat msg => some msg
  | _ => none

theorem Item.eq_chat {item : Item} {msg : Message} (h : item.chat? = some msg) :
    item = .chat msg := by
  cases item with
  | chat msg' => exact congrArg Item.chat (Option.some.inj h)
  | query | control | queryResponse | controlResponse => cases h

theorem Chat.chat?_of_isAnswer {item : Item} (h : Chat.IsAnswer item) : item.chat? = none := by
  cases item with
  | queryResponse | controlResponse => rfl
  | chat | query | control => cases h

/-- The name of the queue, and the type. -/
def Entry.key (e : Entry) : Queue × ℤ :=
  (e.1, e.2.mtype)

/-- The messages of a user to a client or a group. -/
structure Conversation where
  type : Chat.MessageType
  src : ℤ
  dst : ℤ
deriving DecidableEq

namespace Conversation

variable (c : Conversation)

/-- The message as it was written, if it is one of the conversation. -/
def pick (msg : Message) : Option Message :=
  if msg.protocol = c.type.protocol ∧ msg.src = c.src ∧ msg.dst = c.dst then
    some { msg with mtype := 0 }
  else none

/-- The message of the conversation that is under `k`. -/
def view (k : Queue × ℤ) (e : Entry) : Option Message :=
  if e.key = k then e.2.chat?.bind c.pick else none

/-- Where the server takes the messages. -/
def toServer : Queue × ℤ :=
  (.server, c.type.protocol)

/-- Where the router of a receiver takes them. -/
def toRouter (uid : ℤ) : Queue × ℤ :=
  (.server, uid + 5000)

/-- The type under which a loop reads them. -/
def loopType : ℤ :=
  match c.type with
  | .client => 10000 + c.src
  | .group => 5000 + c.dst

/-- Where a loop of a receiver takes them. -/
def toLoop (uid : ℤ) : Queue × ℤ :=
  (.client uid, c.loopType)

variable {c}

@[simp] theorem pick_mtype (msg : Message) (t : ℤ) :
    c.pick { msg with mtype := t } = c.pick msg :=
  rfl

theorem protocol_of_pick {msg : Message} (h : (c.pick msg).isSome) :
    msg.protocol = c.type.protocol ∧ msg.src = c.src ∧ msg.dst = c.dst := by
  unfold pick at h
  split_ifs at h with hmsg
  · exact hmsg
  · cases h

theorem pick_eq_none {msg : Message} (h : msg.protocol ≠ c.type.protocol) : c.pick msg = none :=
  if_neg fun hmsg => h hmsg.1

theorem view_chat (k : Queue × ℤ) (q : Queue) (msg : Message) :
    c.view k (q, .chat msg) = if (q, msg.mtype) = k then c.pick msg else none :=
  rfl

theorem view_chat_mtype (k : Queue × ℤ) (q : Queue) (msg : Message) (t : ℤ) :
    c.view k (q, .chat { msg with mtype := t }) = if (q, t) = k then c.pick msg else none :=
  rfl

theorem key_of_view {k : Queue × ℤ} {e : Entry} (h : (c.view k e).isSome) : e.key = k := by
  unfold view at h
  split_ifs at h with hkey
  · exact hkey
  · cases h

theorem view_eq_none {k : Queue × ℤ} {e : Entry} (h : e.key ≠ k) : c.view k e = none :=
  if_neg h

/-- What is seen is a chat message of the conversation. -/
theorem exists_of_view {k : Queue × ℤ} {q : Queue} {item : Item} (h : (c.view k (q, item)).isSome) :
    ∃ msg, item = .chat msg ∧ (c.pick msg).isSome := by
  rw [view, if_pos (key_of_view h)] at h
  obtain ⟨m, hm⟩ := Option.isSome_iff_exists.1 h
  obtain ⟨msg, hmsg, hpick⟩ := Option.bind_eq_some_iff.1 hm
  exact ⟨msg, Item.eq_chat hmsg, by rw [hpick]; rfl⟩

theorem view_of_isAnswer {k : Queue × ℤ} {q : Queue} {item : Item} (h : Chat.IsAnswer item) :
    c.view k (q, item) = none := by
  rw [view, Chat.chat?_of_isAnswer h, Option.bind_none, ite_self]

@[simp] theorem view_query (k : Queue × ℤ) (q : Queue) (query : QueryRequest) :
    c.view k (q, .query query) = none := by
  simp [view, Item.chat?]

@[simp] theorem view_control (k : Queue × ℤ) (q : Queue) (cmsg : ControlMessage) :
    c.view k (q, .control cmsg) = none := by
  simp [view, Item.chat?]

@[simp] theorem view_queryResponse (k : Queue × ℤ) (q : Queue) (qres : QueryResponse) :
    c.view k (q, .queryResponse qres) = none :=
  view_of_isAnswer trivial

@[simp] theorem view_controlResponse (k : Queue × ℤ) (q : Queue) (cres : ControlResponse) :
    c.view k (q, .controlResponse cres) = none :=
  view_of_isAnswer trivial

end Conversation

namespace Chat

variable {s s' : Chat} {c : Conversation} {k : Queue × ℤ} {p : Prop}

/-! ## What a step does -/

/-- The steps after which the server lives. -/
inductive Move (s : Chat) : Label → Chat → Prop where
  | tick : Move s .tick { s with now := s.now + 1 }
  | flush (t : Thread) (h : Thread × Entry) (rest : List (Thread × Entry))
    (hr : Lib.receive Prod.fst s.hands t = some (h, rest)) :
    Move s (.flush t) { s with hands := rest, msgs := s.msgs ++ [h.2] }
  | lost (t : Thread) (hands : List (Thread × Entry)) (hsub : hands ⊆ s.hands) :
    Move s (.fail t) { s with hands := hands }
  | distribute (s₁ : Chat) (msg : Message) (grp : ℕ) (g : Group)
    (hrcv : s.msgrcv .server groupMessage = some (.chat msg, s₁))
    (hgrp : s.reg.findGroupById msg.dst = some (some grp)) (hg : s.reg.groups[grp]? = some g) :
    Move s .handleGroupSendMsgs { s₁ with
      forwarding := some ⟨grp, { msg with protocol := groupMessage }, 0, g.numClients⟩ }
  | toMember (f : Forward) (cid : ℤ) (hf : s.forwarding = some f) (hi : (f.i : ℤ) < f.numClients)
    (hcid : s.memberCid f.grp f.i = some cid) :
    Move s (.sendToMember true) { s.msgsnd .server (.chat { f.msg with mtype := cid + 5000 }) with
      forwarding := some { f with i := f.i + 1 } }
  | failed (f : Forward) (cid : ℤ) (hf : s.forwarding = some f) (hi : (f.i : ℤ) < f.numClients)
    (hcid : s.memberCid f.grp f.i = some cid) :
    Move s (.sendToMember false) { s with forwarding := none }
  | allSent (sent : Bool) (f : Forward) (hf : s.forwarding = some f)
    (hi : ¬(f.i : ℤ) < f.numClients) : Move s (.sendToMember sent) { s with forwarding := none }
  | toClient (s₁ : Chat) (msg : Message)
    (hrcv : s.msgrcv .server clientMessage = some (.chat msg, s₁)) (hcid : msg.dst ∈ s.reg.cids) :
    Move s .handleClientSendMsgs (s₁.hold .clientSend
      [(.server, .chat { msg with protocol := clientMessage, mtype := msg.dst + 5000 })])
  | answer (s₁ : Chat) (query : QueryRequest) (q : ℤ) (qs : List QueryResponse)
    (hrcv : s.msgrcv .server queryRequestType = some (.query query, s₁)) :
    Move s .handleQueries (s₁.hold .queries (qs.map fun qres => (.clt q, .queryResponse qres)))
  | manage (queue : ℤ) (garbage : Garbage) (s₁ : Chat) (cmsg : ControlMessage)
    (reg : Registry) (q : ℤ) (cres : ControlResponse)
    (hrcv : s.msgrcv .server controlType = some (.control cmsg, s₁))
    (hreg : s.reg.handleControlMsgs cmsg queue garbage = some (reg, q, cres)) :
    Move s (.handleControlMsgs queue garbage)
      ({ s₁ with reg := reg }.hold .control [(.clt q, .controlResponse cres)])
  | control (uid : ℤ) (pid : ℕ) (cmsg : ControlMessage) :
    Move s (.control uid pid cmsg) (s.msgsnd .server (.control cmsg))
  | query (uid : ℤ) (pid : ℕ) (query : QueryRequest) :
    Move s (.query uid pid query) (s.msgsnd .server (.query query))
  | write (uid : ℤ) (pid : ℕ) (type : MessageType) (msg : Message) :
    Move s (.sendMessage uid pid type msg) (s.sendMessage uid pid type msg)
  | drop (uid : ℤ) (pid : ℕ) (s₁ : Chat) (msg : Message)
    (hrcv : s.msgrcv .server (uid + 5000) = some (.chat msg, s₁))
    (hdrop : Expired s.now msg ∨ msg.protocol ≠ groupMessage ∧ msg.protocol ≠ clientMessage) :
    Move s (.handleMessages uid pid) s₁
  | route (uid : ℤ) (pid : ℕ) (s₁ : Chat) (type : MessageType) (msg : Message)
    (hrcv : s.msgrcv .server (uid + 5000) = some (.chat msg, s₁)) (hlive : ¬Expired s.now msg)
    (hprotocol : msg.protocol = type.protocol) :
    Move s (.handleMessages uid pid) (s₁.hold (.router uid pid)
      [(.client uid, .chat { msg with
        mtype := (⟨type, msg.src, msg.dst⟩ : Conversation).loopType })])
  | read (uid : ℤ) (pid : ℕ) (target : Target) (s₁ : Chat) (item : Item)
    (hrcv : s.msgrcv (.client uid) target.mtype = some (item, s₁)) :
    Move s (.read uid pid target) s₁
  | receiveControl (uid : ℤ) (pid : ℕ) (s₁ : Chat) (item : Item)
    (hrcv : s.msgrcv (.client uid) controlResponseType = some (item, s₁)) :
    Move s (.receiveControl uid pid) s₁
  | receiveQuery (uid : ℤ) (pid : ℕ) (s₁ : Chat) (item : Item)
    (hrcv : s.msgrcv (.client uid) queryResponseType = some (item, s₁)) :
    Move s (.receiveQuery uid pid) s₁

theorem move_handleGroupSendMsgs (h : s.handleGroupSendMsgs = some s')
    (hlive : s'.crashed = false) : Move s .handleGroupSendMsgs s' := by
  obtain ⟨⟨item, s₁⟩, hrcv, h⟩ := Option.bind_eq_some_iff.1 h
  cases item with
  | chat msg =>
    simp only at h
    split at h
    · rename_i grp hgrp
      split at h
      · rename_i g hg
        obtain rfl := Option.some.inj h
        exact .distribute s₁ msg grp g hrcv hgrp hg
      · obtain rfl := Option.some.inj h
        cases hlive
    · obtain rfl := Option.some.inj h
      cases hlive
  | query | control | queryResponse | controlResponse => cases h

theorem move_sendToMember {f : Forward} (hf : s.forwarding = some f) (sent : Bool)
    (hlive : (s.sendToMember f sent).crashed = false) :
    Move s (.sendToMember sent) (s.sendToMember f sent) := by
  unfold sendToMember at hlive ⊢
  split
  · rename_i hi
    rw [if_pos hi] at hlive
    split
    · rename_i hcid
      rw [hcid] at hlive
      cases hlive
    · rename_i cid hcid
      rw [hcid] at hlive
      cases sent with
      | true =>
        simp only [if_true] at hlive ⊢
        split
        · exact .toMember f cid hf hi hcid
        · rename_i hlen
          rw [if_neg hlen] at hlive
          cases hlive
      | false => exact .failed f cid hf hi hcid
  · rename_i hi
    exact .allSent sent f hf hi

theorem move_handleClientSendMsgs (h : s.handleClientSendMsgs = some s')
    (hlive : s'.crashed = false) : Move s .handleClientSendMsgs s' := by
  obtain ⟨⟨item, s₁⟩, hrcv, h⟩ := Option.bind_eq_some_iff.1 h
  cases item with
  | chat msg =>
    simp only at h
    split at h
    · rename_i msg' hmsg
      obtain rfl := Option.some.inj h
      obtain ⟨hcid, rfl⟩ := exists_of_handleClientSendMsgs hmsg
      exact .toClient s₁ msg hrcv hcid
    · obtain rfl := Option.some.inj h
      cases hlive
  | query | control | queryResponse | controlResponse => cases h

theorem move_handleQueries (h : s.handleQueries = some s') (hlive : s'.crashed = false) :
    Move s .handleQueries s' := by
  obtain ⟨⟨item, s₁⟩, hrcv, h⟩ := Option.bind_eq_some_iff.1 h
  cases item with
  | query query =>
    simp only at h
    split at h
    · rename_i q qs hqs
      obtain rfl := Option.some.inj h
      exact .answer s₁ query q qs hrcv
    · obtain rfl := Option.some.inj h
      cases hlive
  | chat | control | queryResponse | controlResponse => cases h

theorem move_handleControlMsgs {queue : ℤ} {garbage : Garbage}
    (h : s.handleControlMsgs queue garbage = some s') (hlive : s'.crashed = false) :
    Move s (.handleControlMsgs queue garbage) s' := by
  obtain ⟨⟨item, s₁⟩, hrcv, h⟩ := Option.bind_eq_some_iff.1 h
  cases item with
  | control cmsg =>
    simp only at h
    split at h
    · rename_i reg q cres hreg
      obtain rfl := Option.some.inj h
      exact .manage queue garbage s₁ cmsg reg q cres hrcv hreg
    · obtain rfl := Option.some.inj h
      cases hlive
  | chat | query | queryResponse | controlResponse => cases h

theorem move_handleMessages {uid : ℤ} {pid : ℕ} (h : s.handleMessages uid pid = some s') :
    Move s (.handleMessages uid pid) s' := by
  obtain ⟨⟨item, s₁⟩, hrcv, h⟩ := Option.bind_eq_some_iff.1 h
  cases item with
  | chat msg =>
    simp only at h
    split at h
    · rename_i hexpired
      obtain rfl := Option.some.inj h
      exact .drop uid pid s₁ msg hrcv (.inl hexpired)
    rename_i hexpired
    split at h
    · rename_i hgroup
      obtain rfl := Option.some.inj h
      exact .route uid pid s₁ .group msg hrcv hexpired hgroup
    rename_i hgroup
    split at h
    · rename_i hclient
      obtain rfl := Option.some.inj h
      exact .route uid pid s₁ .client msg hrcv hexpired hclient
    · rename_i hclient
      obtain rfl := Option.some.inj h
      exact .drop uid pid s₁ msg hrcv (.inr ⟨hgroup, hclient⟩)
  | query | control | queryResponse | controlResponse => cases h

/-- A step after which the server lives is one of the moves. -/
theorem move_of_chatStep {l : Label} (h : chatStep s l = some s') (hlive : s'.crashed = false) :
    Move s l s' := by
  unfold chatStep at h
  split at h
  · cases l with
    | tick =>
      obtain rfl := Option.some.inj h
      exact .tick
    | flush t =>
      simp only [perform, flush] at h
      split at h
      · cases h
      obtain ⟨⟨e, rest⟩, hr, rfl⟩ := Option.map_eq_some_iff.1 h
      exact .flush t e rest hr
    | fail t =>
      obtain ⟨hands, hsub, rfl⟩ := hands_of_fail h
      exact .lost t hands hsub
    | handleGroupSendMsgs => exact move_handleGroupSendMsgs h hlive
    | sendToMember sent =>
      obtain ⟨f, hf, rfl⟩ := Option.map_eq_some_iff.1 h
      exact move_sendToMember hf sent hlive
    | handleClientSendMsgs => exact move_handleClientSendMsgs h hlive
    | handleQueries => exact move_handleQueries h hlive
    | handleControlMsgs queue garbage => exact move_handleControlMsgs h hlive
    | control uid pid cmsg =>
      obtain rfl := Option.some.inj h
      exact .control uid pid cmsg
    | query uid pid query =>
      obtain rfl := Option.some.inj h
      exact .query uid pid query
    | sendMessage uid pid type msg =>
      obtain rfl := Option.some.inj h
      exact .write uid pid type msg
    | handleMessages uid pid => exact move_handleMessages h
    | read uid pid target =>
      obtain ⟨⟨item, s₁⟩, hrcv, rfl⟩ := Option.map_eq_some_iff.1 h
      exact .read uid pid target s₁ item hrcv
    | receiveControl uid pid =>
      obtain ⟨⟨item, s₁⟩, hrcv, rfl⟩ := Option.map_eq_some_iff.1 h
      exact .receiveControl uid pid s₁ item hrcv
    | receiveQuery uid pid =>
      obtain ⟨⟨item, s₁⟩, hrcv, rfl⟩ := Option.map_eq_some_iff.1 h
      exact .receiveQuery uid pid s₁ item hrcv
  · cases h

/-! ## Stages -/

/-- The messages of the conversation that wait under `k`, on a queue or in a hand. -/
def waiting (s : Chat) (c : Conversation) (k : Queue × ℤ) : List Message :=
  s.entries.filterMap (c.view k)

theorem waiting_hold (t : Thread) (es : List Entry) :
    (s.hold t es).waiting c k = s.waiting c k ++ es.filterMap (c.view k) := by
  have hmap : (es.map fun e => (t, e)).map Prod.snd = es := by
    rw [List.map_map]
    exact List.map_id es
  simp [waiting, entries, hold, hmap]

/-- A message that is not seen is sent. -/
theorem waiting_msgsnd {q : Queue} {item : Item} (h : c.view k (q, item) = none) :
    (s.msgsnd q item).waiting c k = s.waiting c k := by
  simp [waiting, entries, msgsnd, List.filterMap_append, h]

/-- A message is sent and no thread has one in hand that is seen. -/
theorem waiting_msgsnd_of_hands {q : Queue} {item : Item}
    (h : ∀ h ∈ s.hands, c.view k h.2 = none) :
    (s.msgsnd q item).waiting c k = s.waiting c k ++ (c.view k (q, item)).toList := by
  have hnil : (s.hands.map Prod.snd).filterMap (c.view k) = [] :=
    List.filterMap_eq_nil_iff.2 fun e he => by
      obtain ⟨x, hx, rfl⟩ := List.mem_map.1 he
      exact h x hx
  simp only [waiting, entries, msgsnd, List.filterMap_append, hnil]
  cases hv : c.view k (q, item) <;> simp [hv]

theorem waiting_msgrcv (h : Inv s) {q : Queue} {t : ℤ} {item : Item}
    (hrcv : s.msgrcv q t = some (item, s')) (hq : Owned q) : s.waiting c k =
      (if (q, t) = k then item.chat?.bind c.pick else none).toList ++ s'.waiting c k := by
  obtain ⟨⟨⟨q', item'⟩, msgs⟩, hr, heq⟩ := Option.map_eq_some_iff.1 hrcv
  obtain ⟨rfl, rfl⟩ := Prod.mk.inj heq
  have hkey : s.queues.key (q', item') = (s.queues.msqid q, t) := Lib.key_of_receive hr
  obtain ⟨hmsqid, hmtype⟩ := Prod.mk.inj hkey
  simp only [waiting, entries, List.filterMap_append]
  by_cases hitem : IsAnswer item'
  · have hnone : c.view k (q', item') = none := Conversation.view_of_isAnswer hitem
    rw [Lib.filterMap_of_receive_none hr hnone, chat?_of_isAnswer hitem, Option.bind_none, ite_self]
    rfl
  have hq' := (h.entries _ (List.mem_append_left _ (Lib.mem_of_receive hr))).owned hitem
  obtain rfl : q' = q := eq_of_msqid h.apart hq hq' hmsqid
  have hentry : Entry.key (q', item') = (q', t) := congrArg (Prod.mk q') hmtype
  split_ifs with hk
  · have hseen : ∀ e ∈ s.msgs, (c.view k e).isSome → s.queues.key e = (s.queues.msqid q', t) :=
      fun e _ he => by
        have hekey : e.key = (q', t) := (Conversation.key_of_view he).trans hk.symm
        obtain ⟨he₁, he₂⟩ := Prod.mk.inj hekey
        exact congrArg₂ Prod.mk (congrArg s.queues.msqid he₁) he₂
    rw [Lib.filterMap_of_receive hr hseen, List.append_assoc, Conversation.view,
      if_pos (hentry.trans hk)]
  · have hne : Entry.key (q', item') ≠ k := fun heq => hk (hentry.symm.trans heq)
    rw [Lib.filterMap_of_receive_none hr (Conversation.view_eq_none hne)]
    rfl

/-- A thread puts a message on a queue. All that is seen leaves in its order if it is in one
hand. -/
theorem keeps_flush {t T : Thread} {h : Thread × Entry} {rest : List (Thread × Entry)}
    (hr : Lib.receive Prod.fst s.hands t = some (h, rest))
    (hT : p → ∀ h ∈ s.hands, (c.view k h.2).isSome → h.1 = T) :
    Keeps p (s.waiting c k)
      (waiting { s with hands := rest, msgs := s.msgs ++ [h.2] } c k) := by
  have hmap : ∀ hs : List (Thread × Entry),
      (hs.map Prod.snd).filterMap (c.view k) = hs.filterMap fun h => c.view k h.2 := fun hs => by
    rw [List.filterMap_map]
    rfl
  simp only [waiting, entries, List.filterMap_append, hmap]
  refine ⟨?_, fun hp => ?_⟩
  · rw [List.append_assoc]
    refine List.Perm.append_left _ (((Lib.perm_of_receive hr).filterMap _).trans (.of_eq ?_))
    cases hv : c.view k h.2 <;> simp [hv]
  · cases hv : c.view k h.2 with
    | none =>
      rw [Lib.filterMap_of_receive_none hr hv]
      simp [hv]
    | some m =>
      have ht : t = T := (Lib.key_of_receive hr).symm.trans
        (hT hp h (Lib.mem_of_receive hr) (by rw [hv]; rfl))
      rw [Lib.filterMap_of_receive hr fun x hx hsome => (hT hp x hx hsome).trans ht.symm]
      simp [hv]

end Chat

/-! ## What passes the stages -/

namespace Conversation

variable (c : Conversation) (s : Chat)

/-- What the step takes of the conversation. -/
def taken (l : Chat.Label) : Option Message :=
  ((s.taken l).bind Item.chat?).bind c.pick

/-- What the step writes. -/
def sent : Chat.Label → List Message
  | .sendMessage uid _ type msg =>
    (c.pick { msg with mtype := 0, protocol := type.protocol, src := uid }).toList
  | _ => []

/-- What the server takes. -/
def handled : Chat.Label → List Message
  | .handleClientSendMsgs =>
    if .client = c.type then (c.taken s .handleClientSendMsgs).toList else []
  | .handleGroupSendMsgs => if .group = c.type then (c.taken s .handleGroupSendMsgs).toList else []
  | _ => []

/-- What a router of the receiver takes, with the time. -/
def routed (uid : ℤ) : Chat.Label → List (ℤ × Message)
  | .handleMessages uid' pid =>
    if uid' = uid then (c.taken s (.handleMessages uid' pid)).toList.map fun m => (s.now, m) else []
  | _ => []

/-- What a loop of the receiver prints. -/
def printed (uid : ℤ) : Chat.Label → List Message
  | .read uid' pid target => if uid' = uid then (c.taken s (.read uid' pid target)).toList else []
  | _ => []

/-- What a router passes on, of what it takes. -/
def pass (e : ℤ × Message) : Option Message :=
  if Chat.Expired e.1 e.2 then none else some e.2

variable {c s}

theorem taken_eq {l : Chat.Label} {item : Item} (h : s.taken l = some item) :
    c.taken s l = item.chat?.bind c.pick := by
  rw [taken, h, Option.bind_some]

theorem toServer_eq_iff {type : Chat.MessageType} :
    (.server, type.protocol) = c.toServer ↔ type = c.type := by
  cases type <;> cases htype : c.type <;> simp [toServer, htype] <;> decide

end Conversation

namespace Chat

variable {s s' s₁ : Chat} {c : Conversation} {k : Queue × ℤ} {p : Prop} {l : Label}

theorem chat_of_msgrcv (h : Inv s) {q : Queue} {t : ℤ} {msg : Message}
    (hrcv : s.msgrcv q t = some (.chat msg, s₁)) (hq : Owned q) :
    EntryOk s.reg s.written (q, .chat msg) ∧ msg.mtype = t := by
  obtain ⟨hon, hmtype, -⟩ := exists_of_msgrcv hrcv
  exact ⟨h.entryOk_of_on hon hq id, hmtype⟩

/-- A loop reads the queue of its user. -/
theorem owned_of_read {uid : ℤ} {pid : ℕ} {target : Target}
    (henabled : s.Enabled (.read uid pid target)) : Owned (.client uid) := by
  cases target with
  | group gid => exact henabled.2.1
  | client cid => exact henabled.2.1

theorem toServer_ne {q : Queue} {t : ℤ} (h : 2 < t) : (q, t) ≠ c.toServer := by
  have := protocol_pos c.type
  intro heq
  have : t = c.type.protocol := congrArg Prod.snd heq
  omega

/-- The types of the receivers are above those of the server's threads. -/
theorem lt_of_isUid {n : ℤ} (h : IsUid n) : 10 < n + 5000 := by
  have := h.1
  omega

/-- Nothing enters or leaves the stage. -/
theorem keeps_idle (h : Keeps p (s.waiting c k) (s'.waiting c k)) :
    Keeps p (s.waiting c k ++ []) ([] ++ s'.waiting c k) := by
  rwa [List.append_nil, List.nil_append]

/-- A message is taken, and perhaps others are sent. -/
theorem keeps_of_msgrcv (h : Inv s) {q : Queue} {t : ℤ} {item : Item}
    (hrcv : s.msgrcv q t = some (item, s₁)) (hq : Owned q) {new out : List Message}
    (hnew : s'.waiting c k = s₁.waiting c k ++ new)
    (hout : out = (if (q, t) = k then item.chat?.bind c.pick else none).toList) :
    Keeps p (s.waiting c k ++ new) (out ++ s'.waiting c k) :=
  .of_eq (by rw [waiting_msgrcv h hrcv hq, hnew, hout, List.append_assoc])

/-- A message of another stage is taken. -/
theorem keeps_of_msgrcv_ne (h : Inv s) {q : Queue} {t : ℤ} {item : Item}
    (hrcv : s.msgrcv q t = some (item, s₁)) (hq : Owned q) (hne : (q, t) ≠ k) {new : List Message}
    (hnew : s'.waiting c k = s₁.waiting c k ++ new) :
    Keeps p (s.waiting c k ++ new) ([] ++ s'.waiting c k) :=
  keeps_of_msgrcv h hrcv hq hnew (by rw [if_neg hne]; rfl)

theorem taken_of_msgrcv {q : Queue} {t : ℤ} {item : Item} (h : s.msgrcv q t = some (item, s₁)) :
    (s.msgrcv q t).map Prod.fst = some item := by
  rw [h, Option.map_some]

/-- What is held is not seen. -/
theorem waiting_hold_of_none {t : Thread} {es : List Entry} (h : ∀ e ∈ es, c.view k e = none) :
    (s.hold t es).waiting c k = s.waiting c k ++ [] := by
  rw [waiting_hold, List.filterMap_eq_nil_iff.2 h]

theorem filterMap_singleton {e : Entry} :
    [e].filterMap (c.view k) = (c.view k e).toList := by
  cases hv : c.view k e <;> simp [hv]

/-- The copy of a message to a client that its sender puts on its own queue. -/
def ownCopy (uid : ℤ) (type : MessageType) (msg : Message) : List Entry :=
  match type with
  | .client => [(.client uid, .chat { msg with
      mtype := msg.dst + 10000, protocol := clientMessage, src := uid })]
  | .group => []

/-- The copy for the server. -/
def forServer (uid : ℤ) (type : MessageType) (msg : Message) : Entry :=
  (.server, .chat { msg with mtype := type.protocol, protocol := type.protocol, src := uid })

theorem waiting_sendMessage (uid : ℤ) (pid : ℕ) (type : MessageType) (msg : Message) :
    (s.sendMessage uid pid type msg).waiting c k =
      s.waiting c k ++ (ownCopy uid type msg ++ [forServer uid type msg]).filterMap (c.view k) := by
  cases type <;> exact waiting_hold _ _

/-- The copy that a sender keeps is not for the server. -/
theorem filterMap_ownCopy (uid : ℤ) (type : MessageType) (msg : Message) :
    (ownCopy uid type msg).filterMap (c.view c.toServer) = [] := by
  cases type with
  | client =>
    exact List.filterMap_cons_none
      (Conversation.view_eq_none (by simp [Entry.key, Conversation.toServer]))
  | group => rfl

/-- The other one is, if it belongs to the conversation. -/
theorem view_forServer (uid : ℤ) (type : MessageType) (msg : Message) :
    c.view c.toServer (forServer uid type msg) =
      c.pick { msg with mtype := 0, protocol := type.protocol, src := uid } := by
  refine (Conversation.view_chat ..).trans ?_
  split_ifs with hkey
  · rfl
  · refine (Conversation.pick_eq_none fun heq => hkey ?_).symm
    exact congrArg (Prod.mk _) heq

/-- The step is not a failed `msgsnd` of what a thread has in hand. -/
def Delivers : Label → Prop
  | .fail _ => False
  | _ => True

instance : ∀ l, Decidable (Delivers l)
  | .fail _ => .isFalse id
  | .tick | .flush _ | .handleGroupSendMsgs | .sendToMember _ | .handleClientSendMsgs
  | .handleQueries | .handleControlMsgs .. | .control .. | .query .. | .sendMessage ..
  | .handleMessages .. | .read .. | .receiveControl .. | .receiveQuery .. => .isTrue trivial

/-- The steps that move chat messages. -/
def Label.carries : Label → Bool
  | .flush _ | .fail _ | .handleGroupSendMsgs | .sendToMember _ | .handleClientSendMsgs |
    .sendMessage .. | .handleMessages .. | .read .. => true
  | _ => false

/-- Requests and answers leave the stages as they are. -/
theorem waiting_of_not_carries (h : Inv s) (hm : Move s l s') (henabled : s.Enabled l)
    (hl : l.carries = false) : s'.waiting c k = s.waiting c k := by
  have hnot : ∀ {q : Queue} {t : ℤ} {item : Item} {s₁ : Chat}, s.msgrcv q t = some (item, s₁) →
      Owned q → item.chat? = none → s₁.waiting c k = s.waiting c k :=
    fun hrcv hq hitem => by
      rw [waiting_msgrcv h hrcv hq, hitem, Option.bind_none, ite_self]
      rfl
  cases hm with
  | tick => rfl
  | flush | lost | distribute | toMember | failed | allSent | toClient | write | drop | route
  | read => cases hl
  | answer s₁ query q qs hrcv =>
    rw [waiting_hold_of_none, List.append_nil]
    · exact hnot hrcv trivial rfl
    · intro e he
      obtain ⟨qres, -, rfl⟩ := List.mem_map.1 he
      exact Conversation.view_queryResponse ..
  | manage queue garbage s₁ cmsg reg q cres hrcv hreg =>
    have htaken := hnot hrcv trivial rfl
    rw [waiting_hold_of_none, List.append_nil]
    · exact htaken
    · intro e he
      rw [List.mem_singleton.1 he]
      exact Conversation.view_controlResponse ..
  | control uid pid cmsg => exact waiting_msgsnd (Conversation.view_control ..)
  | query uid pid query => exact waiting_msgsnd (Conversation.view_query ..)
  | receiveControl uid pid s₁ item hrcv =>
    cases h.takesOwn _ henabled item (taken_of_msgrcv hrcv)
    exact hnot hrcv henabled.2 rfl
  | receiveQuery uid pid s₁ item hrcv =>
    cases h.takesOwn _ henabled item (taken_of_msgrcv hrcv)
    exact hnot hrcv henabled.2 rfl

/-- The first stage : what is written waits for the server. -/
theorem keeps_toServer (h : Inv s) (hm : Move s l s') (henabled : s.Enabled l) (hd : Delivers l)
    {T : Thread}
    (hT : p → ∀ h ∈ s.hands, (c.view c.toServer h.2).isSome → h.1 = T) :
    Keeps p (s.waiting c c.toServer ++ c.sent l) (c.handled s l ++ s'.waiting c c.toServer) := by
  have hidle := fun hl => (waiting_of_not_carries (c := c) (k := c.toServer) h hm henabled hl).symm
  have hserver : ∀ (t : ℤ) (type : MessageType) {item : Item} {s₁ : Chat},
      s.msgrcv .server type.protocol = some (item, s₁) → s.taken l = some item →
        (if type = c.type then (c.taken s l).toList else []) =
          (if (Queue.server, type.protocol) = c.toServer then item.chat?.bind c.pick
            else none).toList := fun t type item s₁ hrcv htaken => by
    rw [Conversation.taken_eq htaken]
    simp only [Conversation.toServer_eq_iff]
    split_ifs <;> rfl
  cases hm with
  | tick | answer | manage | control | query | receiveControl | receiveQuery =>
    exact keeps_idle (.of_eq (hidle rfl))
  | failed | allSent => exact keeps_idle (.refl _)
  | flush t e rest hr => exact keeps_idle (keeps_flush hr hT)
  | lost => cases hd
  | distribute s₁ msg grp g hrcv hgrp hg =>
    exact keeps_of_msgrcv h hrcv trivial (List.append_nil _).symm
      (hserver groupMessage .group hrcv (taken_of_msgrcv hrcv))
  | toMember f cid hf hi hcid =>
    have hnot : c.view c.toServer (.server, .chat { f.msg with mtype := cid + 5000 }) = none :=
      Conversation.view_eq_none
        (toServer_ne ((lt_of_isUid (h.cids _ (mem_cids_of_memberCid hcid))).trans' (by decide)))
    exact keeps_idle (.of_eq (waiting_msgsnd hnot).symm)
  | toClient s₁ msg hrcv hcid =>
    change Keeps p (s.waiting c c.toServer ++ []) _
    refine keeps_of_msgrcv h hrcv trivial (waiting_hold_of_none fun e he => ?_)
      (hserver clientMessage .client hrcv (taken_of_msgrcv hrcv))
    rw [List.mem_singleton.1 he]
    exact Conversation.view_eq_none
      (toServer_ne ((lt_of_isUid (h.cids _ hcid)).trans' (by decide)))
  | write uid pid type msg =>
    have hview := view_forServer (c := c) uid type msg
    refine .of_eq ((congrArg _ ?_).trans (waiting_sendMessage uid pid type msg).symm)
    rw [List.filterMap_append, filterMap_ownCopy, List.nil_append, Conversation.sent, ← hview,
      filterMap_singleton]
  | drop uid pid s₁ msg hrcv hdrop =>
    exact keeps_of_msgrcv_ne h hrcv trivial
      (toServer_ne ((lt_of_isUid henabled.2).trans' (by decide))) (List.append_nil _).symm
  | route uid pid s₁ type msg hrcv hlive hprotocol =>
    refine keeps_of_msgrcv_ne h hrcv trivial
      (toServer_ne ((lt_of_isUid henabled.2).trans' (by decide)))
      (waiting_hold_of_none fun e he => ?_)
    rw [List.mem_singleton.1 he]
    exact Conversation.view_eq_none (by simp [Entry.key, Conversation.toServer])
  | read uid pid target s₁ item hrcv =>
    exact keeps_of_msgrcv_ne h hrcv (owned_of_read henabled) (by simp [Conversation.toServer])
      (List.append_nil _).symm

theorem toRouter_ne {uid t : ℤ} (huid : IsUid uid) (ht : t ≤ 10) :
    (Queue.server, t) ≠ Conversation.toRouter uid := fun heq => by
  have := lt_of_isUid huid
  have : t = uid + 5000 := congrArg Prod.snd heq
  omega

theorem toRouter_eq_iff {uid uid' : ℤ} :
    (.server, uid' + 5000) = Conversation.toRouter uid ↔ uid' = uid := by
  simp [Conversation.toRouter]

/-- What a router takes. -/
theorem routed_eq {uid uid' : ℤ} {pid : ℕ} {item : Item}
    (h : s.msgrcv .server (uid' + 5000) = some (item, s₁)) :
    (c.routed s uid (.handleMessages uid' pid)).map Prod.snd =
      (if (Queue.server, uid' + 5000) = Conversation.toRouter uid then item.chat?.bind c.pick
        else none).toList := by
  have htaken : s.taken (.handleMessages uid' pid) = some item := taken_of_msgrcv h
  rw [Conversation.routed, Conversation.taken_eq htaken]
  simp only [toRouter_eq_iff]
  split_ifs
  · rw [List.map_map]
    exact List.map_id _
  · rfl

/-- What is written does not go to a router. -/
theorem key_ne_toRouter {uid uid' : ℤ} (huid : IsUid uid) {type : MessageType} {msg : Message}
    {e : Entry} (he : e ∈ ownCopy uid' type msg ++ [forServer uid' type msg]) :
    e.key ≠ Conversation.toRouter uid := by
  rcases List.mem_append.1 he with he | he
  · cases type with
    | client =>
      rw [List.mem_singleton.1 he]
      simp [Entry.key, Conversation.toRouter]
    | group => cases he
  · rw [List.mem_singleton.1 he]
    exact toRouter_ne huid ((protocol_pos type).2.trans (by decide))

/-- The server passes a message of the conversation on to its client. -/
theorem view_forwarded (h : Inv s) {msg : Message}
    (hrcv : s.msgrcv .server clientMessage = some (.chat msg, s₁)) :
    c.view (Conversation.toRouter c.dst)
      (.server, .chat { msg with protocol := clientMessage, mtype := msg.dst + 5000 }) =
        c.pick msg := by
  obtain ⟨hok, hmtype⟩ := chat_of_msgrcv h hrcv trivial
  have hprotocol : msg.protocol = clientMessage := (hok.unhandled (.inl hmtype)).2.trans hmtype
  have hsame : c.pick { msg with protocol := clientMessage, mtype := msg.dst + 5000 } =
      c.pick msg :=
    congrArg (fun n => c.pick { msg with protocol := n }) hprotocol.symm
  rw [Conversation.view_chat, hsame]
  split_ifs with hkey
  · rfl
  · by_contra hpick
    refine hkey (toRouter_eq_iff.2 ?_)
    exact (Conversation.protocol_of_pick (Option.isSome_iff_ne_none.2 (Ne.symm hpick))).2.2

/-- The second stage, for a client : what the server has taken waits for a router. -/
theorem keeps_toRouter_client (h : Inv s) (hm : Move s l s') (henabled : s.Enabled l)
    (hd : Delivers l) (hc : c.type = .client) (hdst : IsUid c.dst)
    (hT : p → ∀ h ∈ s.hands, (c.view (Conversation.toRouter c.dst) h.2).isSome →
      h.1 = .clientSend) :
    Keeps p (s.waiting c (Conversation.toRouter c.dst) ++ c.handled s l)
      ((c.routed s c.dst l).map Prod.snd ++ s'.waiting c (Conversation.toRouter c.dst)) := by
  have hidle := fun hl => (waiting_of_not_carries (c := c) (k := Conversation.toRouter c.dst)
    h hm henabled hl).symm
  cases hm with
  | tick | answer | manage | control | query | receiveControl | receiveQuery =>
    exact keeps_idle (.of_eq (hidle rfl))
  | failed | allSent => exact keeps_idle (.refl _)
  | flush t e rest hr => exact keeps_idle (keeps_flush hr hT)
  | lost => cases hd
  | distribute s₁ msg grp g hrcv hgrp hg =>
    have hout : c.handled s .handleGroupSendMsgs = [] := if_neg (by rw [hc]; decide)
    rw [hout]
    exact keeps_of_msgrcv_ne h hrcv trivial (toRouter_ne hdst (by decide)) (List.append_nil _).symm
  | toMember f cid hf hi hcid =>
    have hnot : c.view (Conversation.toRouter c.dst)
        (.server, .chat { f.msg with mtype := cid + 5000 }) = none := by
      rw [Conversation.view_chat, Conversation.pick_eq_none, ite_self]
      rw [hc, (h.forwarding f hf).protocol]
      decide
    exact keeps_idle (.of_eq (waiting_msgsnd hnot).symm)
  | toClient s₁ msg hrcv hcid =>
    have hview := view_forwarded (c := c) h hrcv
    have htaken : s.taken .handleClientSendMsgs = some (.chat msg) := taken_of_msgrcv hrcv
    have hin : c.handled s .handleClientSendMsgs = (c.pick msg).toList := by
      rw [Conversation.handled, if_pos hc.symm, Conversation.taken_eq htaken]
      rfl
    rw [hin]
    refine keeps_of_msgrcv_ne h hrcv trivial (toRouter_ne hdst (by decide)) ?_
    rw [waiting_hold, ← hview, filterMap_singleton]
  | write uid pid type msg =>
    refine keeps_idle (.of_eq ?_)
    rw [waiting_sendMessage, List.filterMap_eq_nil_iff.2, List.append_nil]
    exact fun e he => Conversation.view_eq_none (key_ne_toRouter hdst he)
  | drop uid pid s₁ msg hrcv hdrop =>
    exact keeps_of_msgrcv h hrcv trivial (List.append_nil _).symm (routed_eq hrcv)
  | route uid pid s₁ type msg hrcv hlive hprotocol =>
    refine keeps_of_msgrcv h hrcv trivial (waiting_hold_of_none fun e he => ?_) (routed_eq hrcv)
    rw [List.mem_singleton.1 he]
    exact Conversation.view_eq_none (by simp [Entry.key, Conversation.toRouter])
  | read uid pid target s₁ item hrcv =>
    exact keeps_of_msgrcv_ne h hrcv (owned_of_read henabled) (by simp [Conversation.toRouter])
      (List.append_nil _).symm

/-- The type under which a message of the conversation is on the queue of a receiver. -/
theorem mtype_of_pick {reg : Registry} {written : List Message} {uid : ℤ} {msg : Message}
    (h : EntryOk reg written (.client uid, .chat msg)) (hown : c.type = .client → c.src ≠ uid)
    (hpick : (c.pick msg).isSome) : msg.mtype = c.loopType := by
  obtain ⟨htype, hsrc, hdst⟩ := Conversation.protocol_of_pick hpick
  unfold Conversation.loopType
  cases h with
  | ofGroup uid huid msg hcopy hprotocol hgroup hmtype =>
    cases hc : c.type with
    | group => rw [hmtype, hdst]
    | client =>
      rw [hprotocol, hc] at htype
      exact absurd htype (by decide)
  | ofClient msg huid hcopy hprotocol hsrc' hmtype =>
    cases hc : c.type with
    | client => rw [hmtype, hsrc]
    | group =>
      rw [hprotocol, hc] at htype
      exact absurd htype (by decide)
  | own msg huid hcopy hprotocol hdst' hmtype =>
    cases hc : c.type with
    | client => exact absurd hsrc.symm (hown hc)
    | group =>
      rw [hprotocol, hc] at htype
      exact absurd htype (by decide)

/-- A loop takes what it is for. -/
theorem printed_eq (h : Inv s) {uid uid' : ℤ} {pid : ℕ} {target : Target} {item : Item}
    (hown : c.type = .client → c.src ≠ uid)
    (hrcv : s.msgrcv (.client uid') target.mtype = some (item, s₁)) (hq : Owned (.client uid')) :
    c.printed s uid (.read uid' pid target) =
      (if (Queue.client uid', target.mtype) = c.toLoop uid then item.chat?.bind c.pick
        else none).toList := by
  have htaken : s.taken (.read uid' pid target) = some item := taken_of_msgrcv hrcv
  rw [Conversation.printed, Conversation.taken_eq htaken]
  by_cases huid : uid' = uid
  · subst huid
    rw [if_pos rfl]
    split_ifs with hkey
    · rfl
    · suffices hnone : item.chat?.bind c.pick = none by rw [hnone]
      refine Option.bind_eq_none_iff.2 fun msg hmsg => ?_
      obtain rfl := Item.eq_chat hmsg
      obtain ⟨hok, hmtype⟩ := chat_of_msgrcv h hrcv hq
      by_contra hpick
      have heq := mtype_of_pick hok hown (Option.isSome_iff_ne_none.2 hpick)
      exact hkey (congrArg (Prod.mk _) (hmtype.symm.trans heq))
  · rw [if_neg huid, if_neg fun heq => huid (Queue.client.inj (congrArg Prod.fst heq))]
    rfl

/-- What a router of the receiver takes of the conversation. -/
theorem routed_self {uid : ℤ} {pid : ℕ} {msg : Message}
    (hrcv : s.msgrcv .server (uid + 5000) = some (.chat msg, s₁)) :
    c.routed s uid (.handleMessages uid pid) = (c.pick msg).toList.map fun m => (s.now, m) := by
  have htaken : s.taken (.handleMessages uid pid) = some (.chat msg) := taken_of_msgrcv hrcv
  rw [Conversation.routed, if_pos rfl, Conversation.taken_eq htaken]
  rfl

theorem routed_of_ne {uid uid' : ℤ} {pid : ℕ} (h : uid' ≠ uid) :
    c.routed s uid (.handleMessages uid' pid) = [] :=
  if_neg h

/-- The message is one of the conversation, as it was written. -/
theorem eq_of_pick {type : MessageType} {msg m : Message} (hprotocol : msg.protocol = type.protocol)
    (h : c.pick msg = some m) : c = ⟨type, msg.src, msg.dst⟩ ∧ m = { msg with mtype := 0 } := by
  obtain ⟨htype, hsrc, hdst⟩ := Conversation.protocol_of_pick (by rw [h]; rfl)
  have hc : type = c.type :=
    Conversation.toServer_eq_iff.1 (congrArg (Prod.mk _) (hprotocol.symm.trans htype))
  rw [Conversation.pick, if_pos ⟨htype, hsrc, hdst⟩] at h
  refine ⟨?_, (Option.some.inj h).symm⟩
  rw [hsrc, hdst, hc]

/-- What is passed on is seen by the loop. -/
theorem filterMap_routed {uid uid' : ℤ} {pid : ℕ} {type : MessageType} {msg : Message}
    (hrcv : s.msgrcv .server (uid' + 5000) = some (.chat msg, s₁)) (hlive : ¬Expired s.now msg)
    (hprotocol : msg.protocol = type.protocol) :
    (c.routed s uid (.handleMessages uid' pid)).filterMap Conversation.pass =
      (c.view (c.toLoop uid) (.client uid', .chat { msg with
        mtype := (⟨type, msg.src, msg.dst⟩ : Conversation).loopType })).toList := by
  by_cases huid : uid' = uid
  · subst huid
    rw [routed_self hrcv, Conversation.view_chat_mtype]
    cases hpick : c.pick msg with
    | none => rw [ite_self]; rfl
    | some m =>
      obtain ⟨rfl, rfl⟩ := eq_of_pick hprotocol hpick
      have hpass : Conversation.pass (s.now, { msg with mtype := 0 }) =
          some { msg with mtype := 0 } := if_neg hlive
      have hkey : (Queue.client uid', (⟨type, msg.src, msg.dst⟩ : Conversation).loopType) =
          (⟨type, msg.src, msg.dst⟩ : Conversation).toLoop uid' := rfl
      rw [if_pos hkey]
      simp [hpass]
  · rw [routed_of_ne huid, Conversation.view_eq_none]
    · rfl
    · exact fun heq => huid (Queue.client.inj (congrArg Prod.fst heq))

/-- What is dropped is not. -/
theorem filterMap_routed_of_drop {uid uid' : ℤ} {pid : ℕ} {msg : Message}
    (hrcv : s.msgrcv .server (uid' + 5000) = some (.chat msg, s₁))
    (hdrop : Expired s.now msg ∨ msg.protocol ≠ groupMessage ∧ msg.protocol ≠ clientMessage) :
    (c.routed s uid (.handleMessages uid' pid)).filterMap Conversation.pass = [] := by
  by_cases huid : uid' = uid
  · subst huid
    rw [routed_self hrcv]
    rcases hdrop with hexpired | ⟨hgroup, hclient⟩
    · cases hpick : c.pick msg with
      | none => rfl
      | some m =>
        obtain ⟨htype, -⟩ := Conversation.protocol_of_pick (c := c) (by rw [hpick]; rfl)
        obtain ⟨-, rfl⟩ := eq_of_pick htype hpick
        have hpass : Conversation.pass (s.now, { msg with mtype := 0 }) = none := if_pos hexpired
        simp [hpass]
    · rw [Conversation.pick_eq_none]
      · rfl
      · cases c.type with
        | client => exact hclient
        | group => exact hgroup
  · rw [routed_of_ne huid]
    rfl

/-- What a sender keeps is not from the other side. -/
theorem view_ownCopy {uid uid' : ℤ} (hown : c.type = .client → c.src ≠ uid) {type : MessageType}
    {msg : Message} {e : Entry} (he : e ∈ ownCopy uid' type msg ++ [forServer uid' type msg]) :
    c.view (c.toLoop uid) e = none := by
  rcases List.mem_append.1 he with he | he
  · cases type with
    | client =>
      rw [List.mem_singleton.1 he]
      by_contra hview
      have hkey := Conversation.key_of_view (Option.isSome_iff_ne_none.2 hview)
      obtain ⟨msg', heq, hpick⟩ :=
        Conversation.exists_of_view (Option.isSome_iff_ne_none.2 hview)
      obtain rfl := Item.chat.inj heq
      obtain ⟨htype, hsrc, -⟩ := Conversation.protocol_of_pick hpick
      have hc : MessageType.client = c.type :=
        Conversation.toServer_eq_iff.1 (congrArg (Prod.mk _) htype)
      exact hown hc.symm (hsrc.symm.trans (Queue.client.inj (congrArg Prod.fst hkey)))
    | group => cases he
  · rw [List.mem_singleton.1 he]
    exact Conversation.view_eq_none (by simp [Entry.key, forServer, Conversation.toLoop])

/-- The third stage : what a router has passed on waits for a loop. -/
theorem keeps_toLoop (h : Inv s) (hm : Move s l s') (henabled : s.Enabled l) (hd : Delivers l)
    {uid : ℤ}
    (hown : c.type = .client → c.src ≠ uid) {T : Thread}
    (hT : p → ∀ h ∈ s.hands, (c.view (c.toLoop uid) h.2).isSome → h.1 = T) :
    Keeps p (s.waiting c (c.toLoop uid) ++ (c.routed s uid l).filterMap Conversation.pass)
      (c.printed s uid l ++ s'.waiting c (c.toLoop uid)) := by
  have hidle := fun hl => (waiting_of_not_carries (c := c) (k := c.toLoop uid)
    h hm henabled hl).symm
  cases hm with
  | tick | answer | manage | control | query | receiveControl | receiveQuery =>
    exact keeps_idle (.of_eq (hidle rfl))
  | failed | allSent => exact keeps_idle (.refl _)
  | flush t e rest hr => exact keeps_idle (keeps_flush hr hT)
  | lost => cases hd
  | distribute s₁ msg grp g hrcv hgrp hg =>
    exact keeps_of_msgrcv_ne h hrcv trivial (by simp [Conversation.toLoop]) (List.append_nil _).symm
  | toMember f cid hf hi hcid =>
    have hnot : c.view (c.toLoop uid) (.server, .chat { f.msg with mtype := cid + 5000 }) = none :=
      Conversation.view_eq_none (by simp [Entry.key, Conversation.toLoop])
    exact keeps_idle (.of_eq (waiting_msgsnd hnot).symm)
  | toClient s₁ msg hrcv hcid =>
    refine keeps_of_msgrcv_ne h hrcv trivial (by simp [Conversation.toLoop])
      (waiting_hold_of_none fun e he => ?_)
    rw [List.mem_singleton.1 he]
    exact Conversation.view_eq_none (by simp [Entry.key, Conversation.toLoop])
  | write uid' pid type msg =>
    refine keeps_idle (.of_eq ?_)
    rw [waiting_sendMessage, List.filterMap_eq_nil_iff.2, List.append_nil]
    exact fun e he => view_ownCopy hown he
  | drop uid' pid s₁ msg hrcv hdrop =>
    rw [filterMap_routed_of_drop hrcv hdrop]
    exact keeps_of_msgrcv_ne h hrcv trivial (by simp [Conversation.toLoop]) (List.append_nil _).symm
  | route uid' pid s₁ type msg hrcv hlive hprotocol =>
    rw [filterMap_routed hrcv hlive hprotocol, ← filterMap_singleton]
    exact keeps_of_msgrcv_ne h hrcv trivial (by simp [Conversation.toLoop]) (waiting_hold _ _)
  | read uid' pid target s₁ item hrcv =>
    have hq := owned_of_read henabled
    exact keeps_of_msgrcv h hrcv hq (List.append_nil _).symm (printed_eq h hown hrcv hq)

/-! ## The order -/

/-- Whose hand a message of a stage is in. -/
structure HandOk (c : Conversation) (uid : ℤ) (p r : ℕ) (h : Thread × Entry) : Prop where
  toServer : (c.view c.toServer h.2).isSome → h.1 = .main c.src p
  toRouter : (c.view (Conversation.toRouter uid) h.2).isSome →
    c.type = .client ∧ h.1 = .clientSend
  toLoop : (c.view (c.toLoop uid) h.2).isSome → h.1 = .router uid r

/-- The sender sends from process `p`, and the receiver has its router in process `r`. -/
def From (c : Conversation) (uid : ℤ) (p r : ℕ) : Label → Prop
  | .sendMessage uid' pid _ _ => uid' = c.src → pid = p
  | .handleMessages uid' pid => uid' = uid → pid = r
  | _ => True

theorem mem_hands_hold {t : Thread} {es : List Entry} {h : Thread × Entry} :
    h ∈ (s.hold t es).hands ↔ h ∈ s.hands ∨ ∃ e ∈ es, (t, e) = h := by
  simp [hold]

theorem hands_of_msgrcv {q : Queue} {t : ℤ} {item : Item} (h : s.msgrcv q t = some (item, s₁)) :
    s₁.hands = s.hands := by
  obtain ⟨-, -, msgs, -, rfl⟩ := exists_of_msgrcv h
  rfl

/-- An entry that is in no stage. -/
theorem handOk_of_none {uid : ℤ} {p r : ℕ} {t : Thread} {e : Entry}
    (h : ∀ k, c.view k e = none) : HandOk c uid p r (t, e) := by
  constructor <;> intro hsome <;> rw [h] at hsome <;> cases hsome

/-- What is held has its key, and is not seen under another. -/
theorem not_isSome_view {q : Queue} {item : Item} (h : (q, item.mtype) ≠ k) :
    ¬(c.view k (q, item)).isSome :=
  fun hsome => h (Conversation.key_of_view hsome)

theorem mem_hands_sendMessage {uid : ℤ} {pid : ℕ} {type : MessageType} {msg : Message}
    {h : Thread × Entry} : h ∈ (s.sendMessage uid pid type msg).hands ↔
      h ∈ s.hands ∨ ∃ e ∈ ownCopy uid type msg ++ [forServer uid type msg],
        (.main uid pid, e) = h := by
  cases type <;> exact mem_hands_hold

theorem handOk_toClient {uid : ℤ} {p r : ℕ} {msg : Message} (hdst : IsUid msg.dst) :
    HandOk c uid p r (.clientSend, .server,
      .chat { msg with protocol := clientMessage, mtype := msg.dst + 5000 }) where
  toServer hsome := absurd hsome
    (not_isSome_view (toServer_ne ((lt_of_isUid hdst).trans' (by decide))))
  toRouter hsome := by
    obtain ⟨msg', heq, hpick⟩ := Conversation.exists_of_view hsome
    obtain rfl := Item.chat.inj heq
    obtain ⟨htype, -⟩ := Conversation.protocol_of_pick hpick
    have hc : MessageType.client = c.type :=
      Conversation.toServer_eq_iff.1 (congrArg (Prod.mk _) htype)
    exact ⟨hc.symm, rfl⟩
  toLoop hsome := absurd hsome (not_isSome_view (by simp [Conversation.toLoop]))

theorem handOk_route {uid uid' : ℤ} {p r pid : ℕ} {item : Item} (hr : uid' = uid → pid = r) :
    HandOk c uid p r (.router uid' pid, .client uid', item) where
  toServer hsome := absurd hsome (not_isSome_view (by simp [Conversation.toServer]))
  toRouter hsome := absurd hsome (not_isSome_view (by simp [Conversation.toRouter]))
  toLoop hsome := by
    have huid : uid' = uid := Queue.client.inj (congrArg Prod.fst (Conversation.key_of_view hsome))
    rw [huid, hr huid]

theorem handOk_write {uid uid' : ℤ} {p r pid : ℕ} {type : MessageType} {msg : Message} {e : Entry}
    (huid : IsUid uid) (hown : c.type = .client → c.src ≠ uid) (hp : uid' = c.src → pid = p)
    (he : e ∈ ownCopy uid' type msg ++ [forServer uid' type msg]) :
    HandOk c uid p r (.main uid' pid, e) where
  toServer hsome := by
    rcases List.mem_append.1 he with he | he
    · rw [List.filterMap_eq_nil_iff.1 (filterMap_ownCopy uid' type msg) e he] at hsome
      cases hsome
    · rw [List.mem_singleton.1 he, view_forServer] at hsome
      have hsrc : uid' = c.src := (Conversation.protocol_of_pick hsome).2.1
      rw [hsrc, hp hsrc]
  toRouter hsome := absurd (Conversation.key_of_view hsome) (key_ne_toRouter huid he)
  toLoop hsome := by
    rw [view_ownCopy hown he] at hsome
    cases hsome

/-- A step leaves each message in the right hand. -/
theorem handOk_step (h : Inv s) (hm : Move s l s') (henabled : s.Enabled l) {uid : ℤ} {p r : ℕ}
    (huid : IsUid uid) (hown : c.type = .client → c.src ≠ uid) (hfrom : From c uid p r l)
    (hhands : ∀ h ∈ s.hands, HandOk c uid p r h) : ∀ h ∈ s'.hands, HandOk c uid p r h := by
  cases hm with
  | tick | toMember | failed | allSent | control | query => exact hhands
  | flush t e rest hr => exact fun h hh => hhands h (Lib.subset_of_receive hr hh)
  | lost t hands hsub => exact fun h hh => hhands h (hsub hh)
  | distribute s₁ msg grp g hrcv hgrp hg =>
    exact fun h hh => hhands h (hands_of_msgrcv hrcv ▸ hh)
  | toClient s₁ msg hrcv hcid =>
    intro e he
    rcases mem_hands_hold.1 he with he | ⟨e', he', rfl⟩
    · exact hhands e (hands_of_msgrcv hrcv ▸ he)
    · rw [List.mem_singleton.1 he']
      exact handOk_toClient (h.cids _ hcid)
  | answer s₁ query q qs hrcv =>
    intro h hh
    rcases mem_hands_hold.1 hh with hh | ⟨e, he, rfl⟩
    · exact hhands h (hands_of_msgrcv hrcv ▸ hh)
    · obtain ⟨qres, -, rfl⟩ := List.mem_map.1 he
      exact handOk_of_none fun k => Conversation.view_queryResponse ..
  | manage queue garbage s₁ cmsg reg q cres hrcv hreg =>
    intro h hh
    rcases mem_hands_hold.1 hh with hh | ⟨e, he, rfl⟩
    · exact hhands h (hands_of_msgrcv hrcv ▸ hh)
    · rw [List.mem_singleton.1 he]
      exact handOk_of_none fun k => Conversation.view_controlResponse ..
  | write uid' pid type msg =>
    intro e he
    rcases mem_hands_sendMessage.1 he with he | ⟨e', he', rfl⟩
    · exact hhands e he
    · exact handOk_write huid hown hfrom he'
  | drop uid' pid s₁ msg hrcv hdrop => exact fun h hh => hhands h (hands_of_msgrcv hrcv ▸ hh)
  | route uid' pid s₁ type msg hrcv hlive hprotocol =>
    intro e he
    rcases mem_hands_hold.1 he with he | ⟨e', he', rfl⟩
    · exact hhands e (hands_of_msgrcv hrcv ▸ he)
    · rw [List.mem_singleton.1 he']
      exact handOk_route hfrom
  | read uid' pid target s₁ item hrcv => exact fun h hh => hhands h (hands_of_msgrcv hrcv ▸ hh)
  | receiveControl uid' pid s₁ item hrcv =>
    exact fun h hh => hhands h (hands_of_msgrcv hrcv ▸ hh)
  | receiveQuery uid' pid s₁ item hrcv =>
    exact fun h hh => hhands h (hands_of_msgrcv hrcv ▸ hh)

/-! ## Runs -/

theorem crashed_of_msgrcv {q : Queue} {t : ℤ} {item : Item} (h : s.msgrcv q t = some (item, s₁)) :
    s₁.crashed = s.crashed := by
  obtain ⟨-, -, msgs, -, rfl⟩ := exists_of_msgrcv h
  rfl

theorem crashed_of_move (hm : Move s l s') : s'.crashed = s.crashed := by
  cases hm with
  | tick | flush | lost | toMember | failed | allSent | control | query | write => rfl
  | distribute s₁ msg grp g hrcv => exact (crashed_of_msgrcv hrcv :)
  | toClient s₁ msg hrcv => exact (crashed_of_msgrcv hrcv :)
  | answer s₁ query q qs hrcv => exact (crashed_of_msgrcv hrcv :)
  | manage queue garbage s₁ cmsg reg q cres hrcv => exact (crashed_of_msgrcv hrcv :)
  | drop uid pid s₁ msg hrcv => exact crashed_of_msgrcv hrcv
  | route uid pid s₁ type msg hrcv => exact (crashed_of_msgrcv hrcv :)
  | read uid pid target s₁ item hrcv => exact crashed_of_msgrcv hrcv
  | receiveControl uid pid s₁ item hrcv => exact crashed_of_msgrcv hrcv
  | receiveQuery uid pid s₁ item hrcv => exact crashed_of_msgrcv hrcv

variable {queues : Queues}

/-- A stage conserves the messages in every run after which the server lives. -/
theorem keeps_of_moves (hapart : queues.Apart) {J : Chat → Prop} {d : Label → Prop}
    {stage : Chat → List Message} {input output : Chat → Label → List Message}
    (hJ : J (start queues)) (hnil : stage (start queues) = [])
    (hstep : ∀ s l s', Inv s → J s → d l → s.Enabled l → Move s l s' →
      J s' ∧ Keeps p (stage s ++ input s l) (output s l ++ stage s')) {ls : List Label}
    (hd : ∀ l ∈ ls, d l) (hr : run chatStep (start queues) ls = some s)
    (hlive : s.crashed = false) :
    Keeps p (Lib.outputs chatStep input (start queues) ls)
      (Lib.outputs chatStep output (start queues) ls ++ stage s) := by
  have hcalm := (Lib.stepsMeet_of_last (N := fun s => s.crashed = false)
    (fun s l s' h hlive => crashed_of_move (move_of_chatStep h hlive) ▸ hlive) hr hlive).2
  have hmoves : ∀ s l s', (Inv s ∧ J s) →
      (d l ∧ ∀ s', chatStep s l = some s' → s'.crashed = false) → chatStep s l = some s' →
        J s' ∧ Keeps p (stage s ++ input s l) (output s l ++ stage s') :=
    fun s l s' hI hc h => hstep s l s' hI.1 hI.2 hc.1 (enabled_of_chatStep h)
      (move_of_chatStep h (hc.2 s' h))
  have hboth : StepsMeet chatStep
      (fun s l => d l ∧ ∀ s', chatStep s l = some s' → s'.crashed = false) (start queues) ls :=
    Lib.stepsMeet_and (stepsMeet_of_forall (fun l hl _ => hd l hl) (start queues)) hcalm
  have hrun : Keeps p (stage (start queues) ++ Lib.outputs chatStep input (start queues) ls)
      (Lib.outputs chatStep output (start queues) ls ++ stage s) :=
    Lib.keeps_run (I := fun s => Inv s ∧ J s)
      (fun s l s' hI hc h => ⟨inv_step hI.1 h, (hmoves s l s' hI hc h).1⟩)
      (fun s l s' hI hc h => (hmoves s l s' hI hc h).2) ⟨inv_start hapart, hJ⟩ hboth hr
  rwa [hnil, List.nil_append] at hrun

/-- The user sends from one process. -/
def SendsFromOne (uid : ℤ) (ls : List Label) : Prop :=
  ∃ p, ∀ pid type msg, .sendMessage uid pid type msg ∈ ls → pid = p

/-- One router works for the user. -/
def RoutedByOne (uid : ℤ) (ls : List Label) : Prop :=
  ∃ r, ∀ pid, .handleMessages uid pid ∈ ls → pid = r

/-- The process of the sender and that of the router, where they are of use. -/
theorem exists_from (c : Conversation) (uid : ℤ) (ls : List Label) : ∃ p r,
    SendsFromOne c.src ls ∧ RoutedByOne uid ls → ∀ l ∈ ls, From c uid p r l := by
  by_cases h : SendsFromOne c.src ls ∧ RoutedByOne uid ls
  · obtain ⟨⟨p, hp⟩, r, hr⟩ := h
    refine ⟨p, r, fun _ l hl => ?_⟩
    cases l with
    | sendMessage uid' pid type msg =>
      rintro rfl
      exact hp pid type msg hl
    | handleMessages uid' pid =>
      rintro rfl
      exact hr pid hl
    | _ => trivial
  · exact ⟨0, 0, fun h' => absurd h' h⟩

/-- The order is to be kept. -/
def Ordered (c : Conversation) (uid : ℤ) (ls : List Label) : Prop :=
  SendsFromOne c.src ls ∧ RoutedByOne uid ls

/-- A stage conserves the messages, with their order if the hands do. -/
theorem keeps_of_handOk (hapart : queues.Apart) {uid : ℤ} (huid : IsUid uid)
    (hown : c.type = .client → c.src ≠ uid) {J : Chat → Prop} {d : Label → Prop}
    {stage : Chat → List Message} {input output : Chat → Label → List Message}
    (hJ : J (start queues)) (hnil : stage (start queues) = []) {ls : List Label}
    (hstep : ∀ p r s l s', Inv s → (Ordered c uid ls → ∀ h ∈ s.hands, HandOk c uid p r h) → J s →
      d l → s.Enabled l → Move s l s' →
        J s' ∧ Keeps (Ordered c uid ls) (stage s ++ input s l) (output s l ++ stage s'))
    (hd : ∀ l ∈ ls, d l) (hr : run chatStep (start queues) ls = some s)
    (hlive : s.crashed = false) :
    Keeps (Ordered c uid ls) (Lib.outputs chatStep input (start queues) ls)
      (Lib.outputs chatStep output (start queues) ls ++ stage s) := by
  obtain ⟨p, r, hfrom⟩ := exists_from c uid ls
  refine keeps_of_moves hapart (d := fun l => (Ordered c uid ls → From c uid p r l) ∧ d l)
    (J := fun s => (Ordered c uid ls → ∀ h ∈ s.hands, HandOk c uid p r h) ∧ J s)
    ⟨fun _ h hh => absurd hh List.not_mem_nil, hJ⟩ hnil
    (fun s l s' h hh hl henabled hm => ?_) (fun l hl => ⟨fun ho => hfrom ho l hl, hd l hl⟩) hr hlive
  obtain ⟨hJ', hkeeps⟩ := hstep p r s l s' h hh.1 hh.2 hl.2 henabled hm
  exact ⟨⟨fun ho => handOk_step h hm henabled huid hown (hl.1 ho) (hh.1 ho), hJ'⟩, hkeeps⟩

/-- The first and the last stage of any conversation. -/
theorem keeps_ends (hapart : queues.Apart) {uid : ℤ} (huid : IsUid uid)
    (hown : c.type = .client → c.src ≠ uid) {ls : List Label} (hd : ∀ l ∈ ls, Delivers l)
    (hr : run chatStep (start queues) ls = some s) (hlive : s.crashed = false) :
    Keeps (Ordered c uid ls) (Lib.outputs chatStep (fun _ l => c.sent l) (start queues) ls)
      (Lib.outputs chatStep (fun s l => c.handled s l) (start queues) ls ++
        s.waiting c c.toServer) ∧
    Keeps (Ordered c uid ls)
      ((Lib.outputs chatStep (fun s l => c.routed s uid l) (start queues) ls).filterMap
        Conversation.pass)
      (Lib.outputs chatStep (fun s l => c.printed s uid l) (start queues) ls ++
        s.waiting c (c.toLoop uid)) := by
  rw [← Lib.outputs_filterMap]
  constructor
  · exact keeps_of_handOk hapart huid hown (J := fun _ => True) (d := Delivers) trivial rfl
      (fun p r s l s' h hh _ hl henabled hm =>
        ⟨trivial, keeps_toServer h hm henabled hl fun ho e he => (hh ho e he).toServer⟩)
      hd hr hlive
  · exact keeps_of_handOk hapart huid hown (J := fun _ => True) (d := Delivers) trivial rfl
      (fun p r s l s' h hh _ hl henabled hm =>
        ⟨trivial, keeps_toLoop h hm henabled hl hown fun ho e he => (hh ho e he).toLoop⟩)
      hd hr hlive

/-- User 1001 registers, and user 1000 sends it a message. -/
def sendText (pid : ℕ) (text : Char) : List Label :=
  [.sendMessage 1000 pid .client ⟨0, 0, 0, 1001, 0, 0, 0, ['u'], [text]⟩,
    .flush (.main 1000 pid), .flush (.main 1000 pid), .handleClientSendMsgs, .flush .clientSend]

def register : List Label :=
  [.control 1001 0 ⟨[], [], .registerClient, 1001, 0⟩, .handleControlMsgs 1002 ⟨0, fun _ => none⟩,
    .flush .control, .receiveControl 1001 0]

/-- Two messages, of which the first is read and the second is with the router. -/
def twoTexts : List Label :=
  register ++ sendText 0 'a' ++ sendText 0 'b' ++
    [.handleMessages 1001 1, .flush (.router 1001 1), .read 1001 0 (.client 1000),
      .handleMessages 1001 1]

theorem ordered_twoTexts : Ordered ⟨.client, 1000, 1001⟩ 1001 twoTexts := by
  refine ⟨⟨0, fun pid type msg h => ?_⟩, 1, fun pid h => ?_⟩
  · simp only [twoTexts, register, sendText, List.cons_append, List.nil_append, List.mem_cons,
      Label.sendMessage.injEq, reduceCtorEq, false_or] at h
    rcases h with h | h | h
    · exact h.2.1
    · exact h.2.1
    · cases h
  · simpa [twoTexts, register, sendText] using h

/-- Each of two routers takes a message, and the second is faster. -/
def twoRouters : List Label :=
  register ++ sendText 0 'a' ++ sendText 0 'b' ++
    [.handleMessages 1001 0, .handleMessages 1001 1, .flush (.router 1001 1),
      .flush (.router 1001 0), .read 1001 0 (.client 1000), .read 1001 0 (.client 1000)]

/-- The messages are printed in the other order. -/
theorem printed_twoRouters :
    (Lib.outputs chatStep (fun s l => (⟨.client, 1000, 1001⟩ : Conversation).printed s 1001 l)
      (start ownQueues) twoRouters).map Message.content = [['b'], ['a']] := by
  decide

end Chat

end NetProg.MsgQueue
