import NetProg.MsgQueue.Conversations

/-!
# Messages that expire

The router of a user drops a message that has expired. The test is made between the two
queues, and a message that has passed it can wait on the queue of its user until a loop for
its conversation is started. The own copy of a message to a client is put on the queue of its
sender without a test. Nothing expires before it is printed when the clock does not pass the
deadline of a message that is on its way from a router to a loop, and a text to a client is
typed in before the deadline (`inTime_run`). Users may share queues for this, but not with the
server.
-/

namespace NetProg.MsgQueue

namespace Chat

variable {s s' : Chat}

/-- The time is not after the deadline of the message. -/
def InTimeAt (t : ℤ) (msg : Message) : Prop :=
  0 < msg.autoDelete → t ≤ msg.timestamp + msg.autoDelete

instance (t : ℤ) (msg : Message) : Decidable (InTimeAt t msg) :=
  inferInstanceAs (Decidable (_ → _))

theorem inTimeAt_iff {t : ℤ} {msg : Message} : InTimeAt t msg ↔ ¬Expired t msg := by
  unfold InTimeAt Expired
  omega

/-- A message that a loop can print. -/
def toLoop : Entry → Option Message
  | (.client _, .chat msg) => some msg
  | _ => none

/-- The message that the step prints. -/
def printed (s : Chat) : Label → Option Message
  | .read uid _ target =>
    (s.msgrcv (.client uid) target.mtype).bind fun r => toLoop (.client uid, r.1)
  | _ => none

/-- What the step prints has not expired. -/
def InTime (s : Chat) (l : Label) : Prop :=
  ∀ msg ∈ s.printed l, InTimeAt s.now msg

instance (l : Label) : Decidable (s.InTime l) :=
  inferInstanceAs (Decidable (∀ msg ∈ s.printed l, InTimeAt s.now msg))

/-- The clock does not pass the deadline of a message that a loop can print, and a message to
a client is sent in time. -/
def Prompt (s : Chat) : Label → Prop
  | .tick => ∀ e ∈ s.entries, ∀ msg ∈ toLoop e, InTimeAt (s.now + 1) msg
  | .sendMessage _ _ .client msg => InTimeAt s.now msg
  | _ => True

instance : ∀ l, Decidable (s.Prompt l)
  | .tick => inferInstanceAs (Decidable (∀ e ∈ s.entries, ∀ msg ∈ toLoop e, _))
  | .sendMessage _ _ .client msg => inferInstanceAs (Decidable (InTimeAt s.now msg))
  | .sendMessage _ _ .group _ | .flush _ | .fail _ | .handleGroupSendMsgs | .sendToMember _
  | .handleClientSendMsgs | .handleQueries | .handleControlMsgs _ _ | .control .. | .query ..
  | .handleMessages .. | .read .. | .receiveControl .. | .receiveQuery .. => .isTrue trivial

/-- No message that a loop can print has expired, and no loop reads the queue of the server. -/
structure Fresh (s : Chat) : Prop where
  server : ∀ uid, s.queues.client uid ≠ s.queues.server
  answers : ∀ queue item, (.clt queue, item) ∈ s.entries → IsAnswer item
  entries : ∀ e ∈ s.entries, ∀ msg ∈ toLoop e, InTimeAt s.now msg

/-- What the server puts on `clt->queue`. -/
theorem isAnswer_of_sends {l : Label} {queue : ℤ} {item : Item}
    (hs : Sends s l (.clt queue, item)) : IsAnswer item := by
  cases hs with
  | queryResponse | controlResponse => trivial

/-- What is sent to a loop has passed the test of a router, or is typed in in time. -/
theorem inTimeAt_of_sends {l : Label} {e : Entry} (hs : Sends s l e) (hprompt : s.Prompt l)
    {msg : Message} (hmsg : msg ∈ toLoop e) : InTimeAt s.now msg := by
  cases hs with
  | own uid pid msg =>
    obtain rfl := Option.some.inj hmsg
    exact hprompt
  | ofGroup uid pid msg hmem hmtype hlive hprotocol =>
    obtain rfl := Option.some.inj hmsg
    exact inTimeAt_iff.2 hlive
  | ofClient uid pid msg hmem hmtype hlive hprotocol =>
    obtain rfl := Option.some.inj hmsg
    exact inTimeAt_iff.2 hlive
  | toServer | control | query | toMember | toClient | queryResponse | controlResponse => cases hmsg

theorem fresh_step {l : Label} (h : Fresh s) (hprompt : s.Prompt l) (hs : chatStep s l = some s') :
    Fresh s' := by
  have hsteps := steps_of_chatStep hs
  refine ⟨hsteps.queues ▸ h.server, fun queue item he => ?_, fun e he msg hmsg => ?_⟩
  · exact (hsteps.entries _ he).elim (h.answers queue item) isAnswer_of_sends
  rcases hsteps.now with hnow | ⟨rfl, hnow⟩
  · rw [hnow]
    rcases hsteps.entries e he with hold | hsends
    · exact h.entries e hold msg hmsg
    · exact inTimeAt_of_sends hsends hprompt hmsg
  · rw [hnow]
    rcases hsteps.entries e he with hold | hsends
    · exact hprompt e hold msg hmsg
    · cases hsends

theorem eq_chat_of_toLoop {uid : ℤ} {item : Item} {msg : Message}
    (h : toLoop (.client uid, item) = some msg) : item = .chat msg := by
  cases item with
  | chat msg' => exact congrArg Item.chat (Option.some.inj h)
  | query | control | queryResponse | controlResponse => cases h

theorem Fresh.inTime (h : Fresh s) (l : Label) : s.InTime l := by
  intro msg hmsg
  cases l with
  | read uid pid target =>
    obtain ⟨⟨item, s'⟩, hrcv, hloop⟩ := Option.bind_eq_some_iff.1 hmsg
    obtain ⟨⟨q, hq, hmem⟩, -⟩ := exists_of_msgrcv hrcv
    have hentry := List.mem_append_left (s.hands.map Prod.snd) hmem
    obtain rfl := eq_chat_of_toLoop hloop
    cases q with
    | server => exact absurd (Int.ofNat.inj hq).symm (h.server uid)
    | client uid' => exact h.entries _ hentry msg rfl
    | clt queue => exact (h.answers queue _ hentry).elim
  | _ => cases hmsg

/-- When no deadline passes between a router and a loop, and messages to clients are typed in
in time, nothing is printed after its deadline. -/
theorem inTime_run (queues : Queues) (hserver : ∀ uid, queues.client uid ≠ queues.server)
    (ls : List Label) (h : StepsMeet chatStep Prompt (start queues) ls) :
    StepsMeet chatStep InTime (start queues) ls :=
  StepsMeet.imp (I := Fresh) (fun _ _ _ h hprompt hs => fresh_step h hprompt hs)
    (fun _ l h _ => h.inTime l)
    ⟨hserver, fun _ _ h => absurd h List.not_mem_nil, fun _ h => absurd h List.not_mem_nil⟩ h

/-- User 1001 registers, and gets a message of user 1000 with a deadline one second later, up
to its own queue. -/
def delivery : List Label :=
  [.control 1001 0 ⟨[], [], .registerClient, 1001, 0⟩, .handleControlMsgs 1002 ⟨0, fun _ => none⟩,
    .flush .control, .receiveControl 1001 0,
    .sendMessage 1000 0 .client ⟨0, 0, 0, 1001, 1, 0, 0, ['u'], ['h', 'i']⟩,
    .flush (.main 1000 0), .flush (.main 1000 0), .handleClientSendMsgs, .flush .clientSend,
    .handleMessages 1001 1, .flush (.router 1001 1)]

/-- The message is read at once. -/
def readAtOnce : List Label :=
  delivery ++ [.read 1001 1 (.client 1000), .read 1000 0 (.client 1001), .tick]

theorem inTime_readAtOnce : (run chatStep (start ownQueues) readAtOnce).isSome ∧
    StepsMeet chatStep InTime (start ownQueues) readAtOnce :=
  ⟨by decide, inTime_run ownQueues (fun uid => Nat.succ_ne_zero uid.toNat) readAtOnce (by decide)⟩

/-- The message is read two seconds later. -/
def readLate : List Label :=
  delivery ++ [.tick, .tick, .read 1001 1 (.client 1000)]

/-- A message is printed after its deadline. -/
theorem not_inTime_readLate : (run chatStep (start ownQueues) readLate).isSome ∧
    ¬StepsMeet chatStep InTime (start ownQueues) readLate := by
  decide

end Chat

end NetProg.MsgQueue
