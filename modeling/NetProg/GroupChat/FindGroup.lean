import NetProg.GroupChat.Groups

/-!
# Finding a group

`handleFindGroupCmd` asks the network for a group and takes the answer from
`findGroupRecv`, a loop of `select` and `recvfrom` that ignores what is not the reply. The
loop frees its buffer with the first datagram it ignores and goes on with NULL : `recvfrom`
fails then, and `msg_type` is read through NULL. A signal ends `select` too, and leaves the
set of descriptors as it is, so that `recvfrom` waits with no timeout.

`firstReply` is the reply that should be found, and `findGroupRecv_iff` says when it is.
-/

namespace NetProg.GroupChat

/-- `FIND_GROUP_REPLY`. -/
def findGroupReply : ℤ :=
  2

/-- `FIND_GROUP_TIMEOUT`, in microseconds. -/
def findGroupTimeout : ℕ :=
  5000000

/-- `struct message`, with the payload read as a `find_grp_reply`. -/
structure Message where
  msgType : ℤ
  findGrpReply : FindGrpReply
deriving DecidableEq, Repr

/-- What ends a wait, a datagram or else a signal, and how long it took to come. -/
structure Wake where
  wait : ℕ
  msg : Option Message
deriving DecidableEq, Repr

/-- How `findGroupRecv` ends. -/
inductive Outcome where
  | returned (msg : Option Message)
  /-- It followed NULL. -/
  | fault
  /-- It waits in `recvfrom` for good. -/
  | blocked
deriving DecidableEq, Repr

/-- This is a reply for `FIND_GROUP`, and the name is the same. -/
def isReply (grpName : String) (msg : Message) : Bool :=
  msg.msgType == findGroupReply && msg.findGrpReply.grpName == grpName

/-- `recvfrom` into the buffer, which a NULL pointer has none of. -/
def recvFrom (recvMsg : Option Message) (msg : Message) : Option Message :=
  recvMsg.map fun _ => msg

/-- The loop, in `select` or, after a signal, in `recvfrom`. -/
def recvLoop (grpName : String) : Option Message → (selecting : Bool) → List Wake → Outcome
  | _, true, [] => .returned none
  | _, false, [] => .blocked
  | recvMsg, selecting, w :: ws =>
    if selecting ∧ findGroupTimeout ≤ w.wait then .returned none
    else
      match w.msg with
      | none => recvLoop grpName recvMsg false ws
      | some msg =>
        match recvFrom recvMsg msg with
        | none => .fault
        | some msg =>
          if isReply grpName msg then .returned (some msg) else recvLoop grpName none true ws

/-- `findGroupRecv`, which starts with the buffer of `calloc`. -/
def findGroupRecv (grpName : String) (ws : List Wake) : Outcome :=
  recvLoop grpName (some ⟨0, "", "", 0⟩) true ws

/-! ## The reply that should be found -/

/-- The first reply for the name that comes before the timeout passes with no datagram. No
datagram came for the time `quiet`. -/
def firstReply (grpName : String) : (quiet : ℕ) → List Wake → Option Message
  | _, [] => none
  | quiet, w :: ws =>
    match w.msg with
    | none => firstReply grpName (quiet + w.wait) ws
    | some msg =>
      if findGroupTimeout ≤ quiet + w.wait then none
      else if isReply grpName msg then some msg
      else firstReply grpName 0 ws

/-- Nothing comes before the timeout. -/
def Quiet (ws : List Wake) : Prop :=
  ∀ w ∈ ws.head?, findGroupTimeout ≤ w.wait

/-- The first datagram is the reply and comes in time, or it is another one and nothing comes
before the timeout after it. -/
def FirstDecides (grpName : String) : (quiet : ℕ) → List Wake → Prop
  | _, [] => False
  | quiet, w :: ws =>
    match w.msg with
    | none => FirstDecides grpName (quiet + w.wait) ws
    | some msg => if isReply grpName msg then quiet + w.wait < findGroupTimeout else Quiet ws

/-- Nothing comes before the timeout, or the first datagram decides. -/
def FoundByFirst (grpName : String) (ws : List Wake) : Prop :=
  Quiet ws ∨ FirstDecides grpName 0 ws

variable {grpName : String} {ws : List Wake}

instance : Decidable (Quiet ws) :=
  inferInstanceAs (Decidable (∀ w ∈ ws.head?, findGroupTimeout ≤ w.wait))

theorem quiet_nil : Quiet [] :=
  fun _ h => absurd h (by simp)

theorem quiet_cons {w : Wake} : Quiet (w :: ws) ↔ findGroupTimeout ≤ w.wait := by
  simp [Quiet]

/-- With gaps shorter than the timeout and no signal, it is the first of the datagrams that
is a reply. -/
theorem firstReply_eq_find? {gaps : List (ℕ × Message)}
    (hgaps : ∀ g ∈ gaps, g.1 < findGroupTimeout) :
    firstReply grpName 0 (gaps.map fun g => ⟨g.1, some g.2⟩) =
      (gaps.map Prod.snd).find? (isReply grpName) := by
  induction gaps with
  | nil => rfl
  | cons g gaps ih =>
    obtain ⟨hg, hgaps⟩ := List.forall_mem_cons.1 hgaps
    have hin : ¬findGroupTimeout ≤ 0 + g.1 := by omega
    simp only [List.map_cons, firstReply, if_neg hin, List.find?_cons]
    cases isReply grpName g.2 with
    | true => rfl
    | false => exact ih hgaps

/-- After the timeout there is no reply. -/
theorem firstReply_late {quiet : ℕ} (h : findGroupTimeout ≤ quiet) :
    firstReply grpName quiet ws = none := by
  induction ws generalizing quiet with
  | nil => rfl
  | cons w ws ih =>
    unfold firstReply
    split
    · exact ih (Nat.le_add_right_of_le h)
    · rw [if_pos (Nat.le_add_right_of_le h)]

theorem firstReply_of_quiet (h : Quiet ws) : firstReply grpName 0 ws = none := by
  cases ws with
  | nil => rfl
  | cons w ws =>
    have hlate : findGroupTimeout ≤ 0 + w.wait := by
      rw [Nat.zero_add]
      exact quiet_cons.1 h
    unfold firstReply
    split
    · exact firstReply_late hlate
    · rw [if_pos hlate]

/-! ## The loop -/

theorem recvLoop_of_quiet (recvMsg : Option Message) (h : Quiet ws) :
    recvLoop grpName recvMsg true ws = .returned none := by
  cases ws with
  | nil => rfl
  | cons w ws =>
    unfold recvLoop
    rw [if_pos ⟨rfl, quiet_cons.1 h⟩]

/-- Something that comes in time goes to `recvfrom`. -/
theorem recvLoop_of_not_quiet (recvMsg : Option Message) (h : ¬Quiet ws) :
    recvLoop grpName recvMsg true ws = recvLoop grpName recvMsg false ws := by
  cases ws with
  | nil => exact absurd quiet_nil h
  | cons w ws =>
    unfold recvLoop
    rw [if_neg fun hlate => h (quiet_cons.2 hlate.2), if_neg (by simp)]

/-- With NULL for a buffer, `recvfrom` is not come back from. -/
theorem recvLoop_null_ne_returned (found : Option Message) :
    recvLoop grpName none false ws ≠ .returned found := by
  induction ws with
  | nil => simp [recvLoop]
  | cons w ws ih =>
    unfold recvLoop
    rw [if_neg (by simp)]
    cases w.msg with
    | none => exact ih
    | some msg => simp [recvFrom]

/-- The loop with NULL finds what it should only if nothing comes. -/
theorem recvLoop_null_iff :
    recvLoop grpName none true ws = .returned (firstReply grpName 0 ws) ↔ Quiet ws := by
  by_cases h : Quiet ws
  · exact iff_of_true (by rw [recvLoop_of_quiet none h, firstReply_of_quiet h]) h
  · refine iff_of_false ?_ h
    rw [recvLoop_of_not_quiet none h]
    exact recvLoop_null_ne_returned _

/-- The first wait of `recvfrom`, with the buffer. -/
theorem recvLoop_waiting_iff (recvMsg : Message) (quiet : ℕ) :
    recvLoop grpName (some recvMsg) false ws = .returned (firstReply grpName quiet ws) ↔
      FirstDecides grpName quiet ws := by
  induction ws generalizing quiet with
  | nil => simp [recvLoop, FirstDecides]
  | cons w ws ih =>
    unfold recvLoop firstReply FirstDecides
    rw [if_neg (by simp)]
    cases w.msg with
    | none => exact ih (quiet + w.wait)
    | some msg =>
      simp only [recvFrom, Option.map_some]
      by_cases hlate : findGroupTimeout ≤ quiet + w.wait
      · rw [if_pos hlate]
        split
        · simpa using hlate
        -- a datagram after the timeout is as good as none
        by_cases hq : Quiet ws
        · exact iff_of_true (recvLoop_of_quiet none hq) hq
        · rw [recvLoop_of_not_quiet none hq]
          exact iff_of_false (recvLoop_null_ne_returned none) hq
      · rw [if_neg hlate]
        split
        · simpa using hlate
        · exact recvLoop_null_iff

/-- For every sequence of datagrams and signals, `findGroupRecv` returns the first reply for
the name, and NULL if there is none in time, if and only if nothing comes before the timeout,
or the first datagram is the reply and comes in time, or it is another one and nothing comes
before the timeout after it. -/
theorem findGroupRecv_iff (grpName : String) (ws : List Wake) :
    findGroupRecv grpName ws = .returned (firstReply grpName 0 ws) ↔ FoundByFirst grpName ws := by
  unfold findGroupRecv FoundByFirst
  by_cases h : Quiet ws
  · exact iff_of_true (by rw [recvLoop_of_quiet _ h, firstReply_of_quiet h]) (.inl h)
  · rw [recvLoop_of_not_quiet _ h, recvLoop_waiting_iff, or_iff_right h]

/-- A message that is not a reply. -/
def otherMessage : Message :=
  ⟨0, "", "", 0⟩

/-- The reply of the group `g`. -/
def replyOf (g : String) : Message :=
  ⟨findGroupReply, g, "239.0.0.1", 5000⟩

/-- Another message comes first, and the reply is read through NULL. -/
theorem not_foundFirst :
    findGroupRecv "g" [⟨1000, some otherMessage⟩, ⟨1000, some (replyOf "g")⟩] = .fault ∧
      findGroupRecv "g" [⟨1000, some otherMessage⟩, ⟨1000, some (replyOf "g")⟩] ≠
        .returned (firstReply "g" 0 [⟨1000, some otherMessage⟩, ⟨1000, some (replyOf "g")⟩]) := by
  decide

/-! ## The command -/

theorem isReply_of_recvLoop {recvMsg : Option Message} {selecting : Bool} {msg : Message}
    (h : recvLoop grpName recvMsg selecting ws = .returned (some msg)) :
    isReply grpName msg = true := by
  induction ws generalizing recvMsg selecting with
  | nil => cases selecting <;> simp [recvLoop] at h
  | cons w ws ih =>
    rw [recvLoop] at h
    split at h
    · cases h
    split at h
    · exact ih h
    split at h
    · cases h
    split at h
    · cases h
      assumption
    · exact ih h

/-- The command for a group that is not joined gives what `findGroupRecv` returns : the check
of the name drops none of its replies. -/
theorem handleFindGroupCmd_findGroupRecv {mc : GroupList} {found : Option Message}
    (hmc : mc.findGroupByName grpName = some none)
    (h : findGroupRecv grpName ws = .returned found) :
    handleFindGroupCmd mc grpName (found.map Message.findGrpReply) =
      some (found.map Message.findGrpReply) := by
  simp only [handleFindGroupCmd, hmc]
  cases found with
  | none => rfl
  | some msg =>
    have hreply := isReply_of_recvLoop h
    simp only [isReply, Bool.and_eq_true] at hreply
    simp [Option.filter, hreply.2]

end NetProg.GroupChat
