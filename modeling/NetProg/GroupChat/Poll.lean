import NetProg.Lib.Run
import NetProg.GroupChat.CommandSafety

/-!
# The votes of a poll

A poll is a child process with a socket of its own and the array `option_cnt`. It counts
each datagram that is a `POLL_REPLY` with the id of the poll, at the index the datagram
names, and prints the counts when nothing came for `POLL_TIMEOUT`. The id is the number of
the process that asked, the same for all its polls, and the port of the socket may be one
that an earlier poll had.

`pollStep` runs the polls of one process. A datagram carries the poll it was made for as a
ghost, and a poll the datagrams it received. `PollsTallied` is what the counts are for, and
`pollsTallied_iff` says in which runs they are that. A counter is an `int` that wraps, and
a place of the array outside it is the memory there.
-/

namespace NetProg.GroupChat

/-- `POLL_REPLY`. -/
def pollReply : ℤ :=
  4

/-- What is used of `struct poll_req`. -/
structure PollReq where
  optionCnt : ℤ
  id : ℤ
  replyPort : ℕ
deriving DecidableEq, Repr

/-- What `recvfrom` leaves in `recv_msg`, which is what was there before where the datagram
is too short, and the number of the poll whose request it answers. -/
structure Datagram where
  msgType : ℤ
  id : ℤ
  option : ℤ
  votesFor : Option ℕ
deriving DecidableEq, Repr

/-- A child of `handlePollCommand`. `stack` is the memory around `option_cnt` when its loop
starts. -/
structure Poll where
  req : PollReq
  optionCnt : ℤ → BitVec 32
  stack : ℤ → BitVec 32
  received : List Datagram
  printed : Option (List ℤ)

/-- `handlePollCommand`, up to the loop of the child. -/
def handlePollCommand (req : PollReq) (stack : ℤ → BitVec 32) : Poll :=
  let zeroed := fun i : ℤ => if 0 ≤ i ∧ i < numOptions then 0 else stack i
  ⟨req, zeroed, zeroed, [], none⟩

namespace Poll

/-- A turn of the loop with a datagram. -/
def recvReply (p : Poll) (d : Datagram) : Poll :=
  { p with
    received := p.received ++ [d]
    optionCnt :=
      if d.msgType ≠ pollReply ∨ d.id ≠ p.req.id then p.optionCnt
      else Function.update p.optionCnt d.option (p.optionCnt d.option + 1) }

/-- The end of the loop, and the final counts. -/
def timeExpired (p : Poll) : Poll :=
  let finalCnt := (List.range p.req.optionCnt.toNat).map fun i : ℕ => (p.optionCnt i).toInt
  { p with printed := some finalCnt }

/-- The poll waits on its socket. -/
def listens (p : Poll) (port : ℕ) : Bool :=
  p.printed.isNone && p.req.replyPort == port

/-- The datagram answers poll `k`, with the request `req`, with option `i`. -/
def votes (k : ℕ) (req : PollReq) (i : ℤ) (d : Datagram) : Bool :=
  d.msgType == pollReply && d.id == req.id && d.votesFor == some k && d.option == i

/-- The replies received that answer poll `k` with option `i`. -/
def tally (k : ℕ) (p : Poll) (i : ℤ) : ℕ :=
  p.received.countP (votes k p.req i)

end Poll

/-! ## The polls of a process -/

/-- A process with the polls it started, in their order. -/
structure Polls where
  pid : ℤ
  polls : List Poll

/-- A step. -/
inductive PollLabel where
  /-- `init-poll` of the user, with the port `bind` gives. -/
  | initPoll (optionCnt : ℤ) (port : ℕ) (stack : ℤ → BitVec 32)
  /-- A datagram arrives. -/
  | arrive (port : ℕ) (d : Datagram)
  /-- Nothing came to a poll for `POLL_TIMEOUT`. -/
  | timeout (k : ℕ)

/-- The poll whose socket has the port. -/
def Polls.listening (s : Polls) (port : ℕ) : Option ℕ :=
  s.polls.findIdx? fun p => p.listens port

/-- One step. A command that is accepted has at most `NUM_OPTIONS` options
(`optionCnt_le_of_parseInitPoll`), a port is given to one socket at a time, and a datagram
nobody waits for is lost. -/
def pollStep (s : Polls) : PollLabel → Option Polls
  | .initPoll optionCnt port stack =>
    if optionCnt ≤ numOptions ∧ s.listening port = none then
      some { s with polls := s.polls ++ [handlePollCommand ⟨optionCnt, s.pid, port⟩ stack] }
    else none
  | .arrive port d =>
    match s.listening port with
    | none => some s
    | some k => some { s with polls := s.polls.modify k fun p => p.recvReply d }
  | .timeout k =>
    if s.polls[k]?.any fun p => p.printed.isNone then
      some { s with polls := s.polls.modify k Poll.timeExpired }
    else none

/-- The counter of each option is the number of replies that answer this poll with it, no
other memory changed, and the final counts are these numbers. -/
structure Tallied (k : ℕ) (p : Poll) : Prop where
  optionCnt : ∀ i, 0 ≤ i ∧ i < p.req.optionCnt → (p.optionCnt i).toInt = p.tally k i
  outside : ∀ i, ¬(0 ≤ i ∧ i < p.req.optionCnt) → p.optionCnt i = p.stack i
  printed : ∀ cnt ∈ p.printed,
    cnt = (List.range p.req.optionCnt.toNat).map fun i : ℕ => (p.tally k i : ℤ)

/-- Every poll is tallied. -/
def PollsTallied (s : Polls) : Prop :=
  ∀ k p, s.polls[k]? = some p → Tallied k p

/-- A datagram that is counted is made for this poll, its option is one of the poll, and the
counter has room. -/
def OwnVote (k : ℕ) (p : Poll) (d : Datagram) : Prop :=
  d.msgType = pollReply → d.id = p.req.id →
    d.votesFor = some k ∧ (0 ≤ d.option ∧ d.option < p.req.optionCnt) ∧
      p.tally k d.option < 2 ^ 31 - 1

instance (k : ℕ) (p : Poll) (d : Datagram) : Decidable (OwnVote k p d) :=
  inferInstanceAs (Decidable (_ → _ → _))

/-- The poll a datagram arrives at counts only votes of its own. -/
def OwnVotes (s : Polls) : PollLabel → Prop
  | .arrive port d => ∀ k ∈ s.listening port, ∀ p ∈ s.polls[k]?, OwnVote k p d
  | _ => True

instance (s : Polls) (l : PollLabel) : Decidable (OwnVotes s l) :=
  match l with
  | .initPoll _ _ _ => .isTrue trivial
  | .arrive port d =>
    inferInstanceAs (Decidable (∀ k ∈ s.listening port, ∀ p ∈ s.polls[k]?, OwnVote k p d))
  | .timeout _ => .isTrue trivial

/-! ## The votes of the program -/

/-- The vote of a peer : the first number it enters that is one of an option. -/
def voteFor (k : ℕ) (req : PollReq) (entered : List ℤ) : Option Datagram :=
  (entered.find? fun selected => !(selected < 1 || selected > req.optionCnt)).map fun selected =>
    ⟨pollReply, req.id, selected - 1, some k⟩

/-- It is counted as it should be where it arrives at its own poll. -/
theorem ownVote_voteFor {k : ℕ} {p : Poll} {entered : List ℤ} {d : Datagram}
    (h : voteFor k p.req entered = some d) (hroom : p.tally k d.option < 2 ^ 31 - 1) :
    OwnVote k p d := by
  intro _ _
  obtain ⟨selected, hfind, rfl⟩ := Option.map_eq_some_iff.1 h
  have hvalid := List.find?_some hfind
  simp only [Bool.not_eq_true', Bool.or_eq_false_iff, decide_eq_false_iff_not, not_lt,
    gt_iff_lt] at hvalid
  exact ⟨rfl, ⟨by dsimp only; omega, by dsimp only; omega⟩, hroom⟩

/-! ## One poll -/

theorem toInt_add_one_ne (x : BitVec 32) : (x + 1).toInt ≠ x.toInt := by
  intro h
  have hne : x + 1 ≠ x := by simp
  exact hne (BitVec.eq_of_toInt_eq h)

/-- An `int` that is not the largest one. -/
theorem toInt_add_one {x : BitVec 32} : (x + 1).toInt = x.toInt + 1 ↔ x.toInt < 2147483647 := by
  have hlow := BitVec.le_toInt x
  have hhigh := BitVec.toInt_lt (x := x)
  rw [BitVec.toInt_add, show (1 : BitVec 32).toInt = 1 by decide]
  constructor
  · intro h
    have := Int.bmod_lt (x := x.toInt + 1) (m := 2 ^ 32) (by norm_num)
    omega
  · intro h
    exact Int.bmod_eq_of_le (by omega) (by omega)

section Poll

variable {k : ℕ} {p : Poll} {d : Datagram}

theorem tally_recvReply (i : ℤ) :
    (p.recvReply d).tally k i = p.tally k i + if Poll.votes k p.req i d then 1 else 0 := by
  simp only [Poll.tally, Poll.recvReply, List.countP_append, List.countP_singleton]

/-- A datagram that is not counted. -/
theorem tallied_recvReply_of_ignored (h : Tallied k p) (hopen : p.printed = none)
    (hd : d.msgType ≠ pollReply ∨ d.id ≠ p.req.id) : Tallied k (p.recvReply d) := by
  have hvotes : ∀ i, Poll.votes k p.req i d = false := fun i => by
    rcases hd with hd | hd
    · simp [Poll.votes, hd]
    · simp [Poll.votes, hd]
  refine ⟨fun i hi => ?_, fun i hi => ?_, fun cnt hcnt => ?_⟩
  · rw [tally_recvReply, hvotes, Poll.recvReply, if_pos hd]
    exact h.optionCnt i hi
  · rw [Poll.recvReply, if_pos hd]
    exact h.outside i hi
  · rw [Poll.recvReply, hopen] at hcnt
    cases hcnt

section Counted

variable (htype : d.msgType = pollReply) (hid : d.id = p.req.id)

include htype hid

theorem optionCnt_recvReply :
    (p.recvReply d).optionCnt =
      Function.update p.optionCnt d.option (p.optionCnt d.option + 1) := by
  rw [Poll.recvReply, if_neg (by simp [htype, hid])]

theorem votes_iff (i : ℤ) :
    Poll.votes k p.req i d = true ↔ d.votesFor = some k ∧ d.option = i := by
  simp [Poll.votes, htype, hid]

/-- A datagram that is counted leaves the poll tallied only if it is a vote of its own : the
counter it raises is that of an option, and stands for one reply more. -/
theorem ownVote_of_tallied_recvReply (h : Tallied k p) (h' : Tallied k (p.recvReply d)) :
    OwnVote k p d := by
  intro _ _
  by_cases hi : 0 ≤ d.option ∧ d.option < p.req.optionCnt
  · have hold := h.optionCnt d.option hi
    have hnew := h'.optionCnt d.option hi
    rw [optionCnt_recvReply htype hid, Function.update_self, tally_recvReply] at hnew
    by_cases hfor : d.votesFor = some k
    · rw [if_pos ((votes_iff htype hid _).2 ⟨hfor, rfl⟩)] at hnew
      rw [Nat.cast_succ, ← hold, toInt_add_one, hold] at hnew
      exact ⟨hfor, hi, by omega⟩
    · rw [if_neg fun hv => hfor ((votes_iff htype hid _).1 hv).1, Nat.add_zero, ← hold] at hnew
      exact absurd hnew (toInt_add_one_ne _)
  · have hold := h.outside d.option hi
    have hnew := h'.outside d.option hi
    rw [optionCnt_recvReply htype hid, Function.update_self] at hnew
    exact absurd (congrArg BitVec.toInt (hnew.trans hold.symm)) (toInt_add_one_ne _)

theorem tallied_recvReply_of_ownVote (h : Tallied k p) (hopen : p.printed = none)
    (hown : OwnVote k p d) : Tallied k (p.recvReply d) := by
  obtain ⟨hfor, hi, hroom⟩ := hown htype hid
  refine ⟨fun i hi' => ?_, fun i hi' => ?_, fun cnt hcnt => ?_⟩
  · rw [optionCnt_recvReply htype hid, tally_recvReply]
    by_cases heq : d.option = i
    · subst heq
      have hold := h.optionCnt d.option hi
      rw [Function.update_self, if_pos ((votes_iff htype hid _).2 ⟨hfor, rfl⟩)]
      rw [toInt_add_one.2 (by omega), hold, Nat.cast_succ]
    · rw [Function.update_of_ne (Ne.symm heq), if_neg fun hv => heq ((votes_iff htype hid i).1 hv).2]
      exact h.optionCnt i hi'
  · rw [optionCnt_recvReply htype hid, Function.update_of_ne]
    · exact h.outside i hi'
    · rintro rfl
      exact hi' hi
  · rw [Poll.recvReply, hopen] at hcnt
    cases hcnt

end Counted

/-- A poll stays tallied with a datagram if and only if it is a vote of its own or is not
counted. -/
theorem tallied_recvReply_iff (h : Tallied k p) (hopen : p.printed = none) :
    Tallied k (p.recvReply d) ↔ OwnVote k p d := by
  by_cases hd : d.msgType ≠ pollReply ∨ d.id ≠ p.req.id
  · refine iff_of_true (tallied_recvReply_of_ignored h hopen hd) fun htype hid => ?_
    exact absurd hd (by simp [htype, hid])
  · obtain ⟨htype, hid⟩ : d.msgType = pollReply ∧ d.id = p.req.id := by simpa using hd
    exact ⟨ownVote_of_tallied_recvReply htype hid h,
      tallied_recvReply_of_ownVote htype hid h hopen⟩

theorem tallied_timeExpired (h : Tallied k p) : Tallied k p.timeExpired := by
  refine ⟨h.optionCnt, h.outside, fun cnt hcnt => ?_⟩
  obtain rfl := Option.some.inj hcnt
  refine List.map_congr_left fun i hi => h.optionCnt i ⟨Int.natCast_nonneg i, ?_⟩
  have := List.mem_range.1 hi
  omega

theorem tallied_handlePollCommand {req : PollReq} (hreq : req.optionCnt ≤ numOptions)
    (stack : ℤ → BitVec 32) : Tallied k (handlePollCommand req stack) := by
  refine ⟨fun i hi => ?_, fun i _ => rfl, fun cnt hcnt => by cases hcnt⟩
  have hi : 0 ≤ i ∧ i < numOptions := ⟨hi.1, lt_of_lt_of_le hi.2 hreq⟩
  simp only [handlePollCommand, if_pos hi]
  rfl

end Poll

/-! ## Runs -/

/-- The poll a datagram arrives at is waiting. -/
theorem of_listening {s : Polls} {port k : ℕ} (h : s.listening port = some k) :
    ∃ p, s.polls[k]? = some p ∧ p.printed = none := by
  obtain ⟨hlt, hp, -⟩ := List.findIdx?_eq_some_iff_getElem.1 h
  refine ⟨s.polls[k], List.getElem?_eq_getElem hlt, ?_⟩
  simp only [Poll.listens, Bool.and_eq_true] at hp
  exact Option.isNone_iff_eq_none.1 hp.1

/-- A step that changes one poll. -/
theorem pollsTallied_modify_iff {s : Polls} (h : PollsTallied s) {k : ℕ} {p : Poll}
    (hp : s.polls[k]? = some p) (f : Poll → Poll) :
    PollsTallied { s with polls := s.polls.modify k f } ↔ Tallied k (f p) := by
  constructor
  · intro h'
    exact h' k (f p) (by simp [hp])
  · intro hf j q hq
    simp only [List.getElem?_modify, Option.map_eq_map, Option.map_eq_some_iff] at hq
    obtain ⟨r, hr, rfl⟩ := hq
    by_cases hkj : k = j
    · subst hkj
      obtain rfl := Option.some.inj (hp.symm.trans hr)
      rwa [if_pos rfl]
    · rw [if_neg hkj]
      exact h j r hr

/-- What one step keeps and breaks. -/
theorem pollsTallied_step_iff {s s' : Polls} {l : PollLabel} (h : PollsTallied s)
    (hstep : pollStep s l = some s') : PollsTallied s' ↔ OwnVotes s l := by
  cases l with
  | initPoll optionCnt port stack =>
    simp only [pollStep, Option.ite_none_right_eq_some] at hstep
    obtain ⟨⟨hcnt, -⟩, hstep⟩ := hstep
    obtain rfl := Option.some.inj hstep
    refine iff_of_true (fun k p hp => ?_) trivial
    rw [List.getElem?_append] at hp
    split at hp
    · exact h k p hp
    · obtain rfl := List.mem_singleton.1 (List.mem_of_getElem? hp)
      exact tallied_handlePollCommand hcnt stack
  | arrive port d =>
    simp only [pollStep] at hstep
    cases hk : s.listening port with
    | none =>
      rw [hk] at hstep
      obtain rfl := Option.some.inj hstep
      exact iff_of_true h (by simp [OwnVotes, hk])
    | some k =>
      rw [hk] at hstep
      obtain rfl := Option.some.inj hstep
      obtain ⟨p, hp, hopen⟩ := of_listening hk
      rw [pollsTallied_modify_iff h hp, tallied_recvReply_iff (h k p hp) hopen]
      simp [OwnVotes, hk, hp]
  | timeout k =>
    simp only [pollStep, Option.ite_none_right_eq_some] at hstep
    obtain ⟨hany, hstep⟩ := hstep
    obtain rfl := Option.some.inj hstep
    obtain ⟨p, hp, -⟩ := (Option.any_eq_true _ _).1 hany
    refine iff_of_true ?_ trivial
    rw [pollsTallied_modify_iff h hp]
    exact tallied_timeExpired (h k p hp)

/-- A process before its first poll. -/
def noPolls (pid : ℤ) : Polls :=
  ⟨pid, []⟩

theorem pollsTallied_noPolls (pid : ℤ) : PollsTallied (noPolls pid) :=
  fun _ _ hp => by simp [noPolls] at hp

/-- In every run of the polls of a process, the counts are the replies that answer the polls
with the options, and nothing else is written, in every state if and only if every datagram
that is counted was made for the poll it arrives at, its option is one of this poll, and the
counter is not at the largest `int`. -/
theorem pollsTallied_iff (pid : ℤ) (ls : List PollLabel)
    (hr : (run pollStep (noPolls pid) ls).isSome) :
    Along pollStep PollsTallied (noPolls pid) ls ↔ StepsMeet pollStep OwnVotes (noPolls pid) ls :=
  along_iff_stepsMeet (fun _ h => h)
    (fun _ _ _ h hc hstep => (pollsTallied_step_iff h hstep).2 hc)
    (fun _ _ _ h hnc hstep hP => hnc ((pollsTallied_step_iff h hstep).1 hP))
    (pollsTallied_noPolls pid) hr

/-- A vote for the second option of poll `k` of the process 7. -/
def secondOption (k : ℕ) : Datagram :=
  ⟨pollReply, 7, 1, some k⟩

/-- A poll of two options with one vote. -/
def votedPoll : List PollLabel :=
  [.initPoll 2 5000 fun _ => 0, .arrive 5000 (secondOption 0), .timeout 0]

theorem pollsTallied_votedPoll :
    (run pollStep (noPolls 7) votedPoll).isSome ∧
      Along pollStep PollsTallied (noPolls 7) votedPoll :=
  ⟨by decide, (pollsTallied_iff 7 votedPoll (by decide)).2 (by decide)⟩

/-- A vote for the first poll comes when the second one has its port. -/
def lateVote : List PollLabel :=
  [.initPoll 2 5000 fun _ => 0, .timeout 0, .initPoll 2 5000 fun _ => 0,
    .arrive 5000 (secondOption 0), .timeout 1]

/-- A vote for option 7 of a poll of two. -/
def strayVote : List PollLabel :=
  [.initPoll 2 5000 fun _ => 0, .arrive 5000 ⟨pollReply, 7, 7, some 0⟩]

/-- The late vote is printed as one for the second poll, and the stray one writes outside the
array. -/
theorem not_pollsTallied_lateVote :
    ((run pollStep (noPolls 7) lateVote).bind fun s => s.polls[1]?.bind Poll.printed) =
        some [0, 1] ∧
      ¬Along pollStep PollsTallied (noPolls 7) lateVote ∧
      ¬Along pollStep PollsTallied (noPolls 7) strayVote := by
  refine ⟨by decide, fun h => ?_, fun h => ?_⟩
  · have hcnt := (((((h.2 _ rfl).2 _ rfl).2 _ rfl).2 _ rfl).head 1 _ rfl).optionCnt 1 (by decide)
    exact absurd hcnt (by decide)
  · have hcnt := (((h.2 _ rfl).2 _ rfl) 0 _ rfl).outside 7 (by decide)
    exact absurd hcnt (by decide)

end NetProg.GroupChat
