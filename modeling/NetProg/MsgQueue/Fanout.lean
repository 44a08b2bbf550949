import NetProg.MsgQueue.Channels
import NetProg.MsgQueue.Identity

/-!
# The way of a message to a group

A thread of the server sends one copy of a message for each of the first `num_clients`
pointers of the group, as they were when it took the message. Between two copies other threads
run, and the control thread can add members. Pointers are only added behind those that are
counted, so the copies that are still to be sent do not change (`pending_eq_of_manage`).

With these copies behind the queue, the second stage conserves the messages to a member of a
group as it does those to a client, if `malloc` leaves no members in a new group, `msgsnd` does
not fail and the queues are apart.
-/

namespace NetProg.MsgQueue

open Lib (Keeps)

/-! ## The members of a group -/

namespace Registry

variable {reg reg' : Registry}

/-- The members that are counted are pointers to clients. -/
def Full (reg : Registry) : Prop :=
  ∀ (k : ℕ) (g : Group), reg.groups[k]? = some g → 0 ≤ g.numClients ∧
    ∀ i < g.numClients.toNat, ∃ m ∈ g.clients i, m < reg.clients.length

theorem full_init : Full init := fun k g hg => by cases hg

theorem Full.mono (h : reg.Full) (hgroups : reg'.groups = reg.groups)
    (hclients : reg.clients.length ≤ reg'.clients.length) : reg'.Full := fun k g hg => by
  obtain ⟨hnonneg, hmember⟩ := h k g (hgroups ▸ hg)
  refine ⟨hnonneg, fun i hi => ?_⟩
  obtain ⟨m, hm, hlt⟩ := hmember i hi
  exact ⟨m, hm, hlt.trans_le hclients⟩

theorem length_clients_of_joins {grp clt : ℕ} {g : Group} (hj : Joins reg reg' grp clt g) :
    reg'.clients.length = reg.clients.length := by
  simpa [cids] using congrArg List.length hj.cids_eq

theorem Full.joins (h : reg.Full) {grp clt : ℕ} {g : Group} (hj : Joins reg reg' grp clt g) :
    reg'.Full := fun k g' hg' => by
  rw [length_clients_of_joins hj]
  rw [hj.groups_eq, List.getElem?_set] at hg'
  split_ifs at hg' with hk hlt
  · obtain rfl := Option.some.inj hg'
    obtain ⟨hnonneg, hmember⟩ := h grp g hj.group
    refine ⟨by rw [Group.numClients_add]; omega, fun i hi => ?_⟩
    rw [Group.clients_add]
    by_cases hn : i = g.numClients.toNat
    · subst hn
      exact ⟨clt, Function.update_self .., hj.lt_clients⟩
    · rw [Function.update_of_ne hn]
      rw [Group.numClients_add] at hi
      exact hmember i (by omega)
  · exact h k g' hg'

theorem Full.addGroup (h : reg.Full) (name : List Char) {garbage : Garbage}
    (hgarbage : garbage.numClients = 0) : (reg.addGroup name garbage).Full := fun k g hg => by
  rw [Registry.addGroup, List.getElem?_append] at hg
  split_ifs at hg with hk
  · exact h k g hg
  · have hzero : g.numClients = 0 := by
      rw [List.mem_singleton.1 (List.mem_of_getElem? hg)]
      exact hgarbage
    rw [hzero]
    exact ⟨le_rfl, fun i hi => absurd hi (Nat.not_lt_zero i)⟩

/-- Members stay counted and clients if fresh groups have none. -/
theorem Controlled.full {cmsg : ControlMessage} {queue : ℤ} {garbage : Garbage}
    {cres : ControlResponse} (hc : Controlled reg cmsg queue garbage reg' cres) (h : reg.Full)
    (hgarbage : garbage.numClients = 0) : reg'.Full := by
  cases hc with
  | known | failed | refused => exact h
  | registered hact hknown hqueue hroom c hcid =>
    refine h.mono rfl ?_
    rw [List.length_append]
    exact Nat.le_add_right ..
  | joined hact hclt hgroup hjoins => exact h.joins hjoins
  | created hact hclt hroom hjoins => exact (h.addGroup cmsg.name hgarbage).joins hjoins

/-- What a control message leaves of a group : the members that were counted. -/
theorem Controlled.group_grows {cmsg : ControlMessage} {queue : ℤ} {garbage : Garbage}
    {cres : ControlResponse} (hc : Controlled reg cmsg queue garbage reg' cres) {k : ℕ} {g : Group}
    (hg : reg.groups[k]? = some g) : ∃ g', reg'.groups[k]? = some g' ∧
      g.numClients ≤ g'.numClients ∧ ∀ i < g.numClients.toNat, g'.clients i = g.clients i := by
  have hadd : ∀ clt : ℕ, g.numClients ≤ (g.add clt).numClients ∧
      ∀ i < g.numClients.toNat, (g.add clt).clients i = g.clients i := fun clt => by
    refine ⟨by rw [Group.numClients_add]; omega, fun i hi => ?_⟩
    rw [Group.clients_add, Function.update_of_ne hi.ne]
  cases hc with
  | known | failed | refused | registered => exact ⟨g, hg, le_rfl, fun i hi => rfl⟩
  | @joined hact clt hclt hgroup reg' g₁ hjoins =>
    by_cases hk : cmsg.gid.toNat = k
    · subst hk
      obtain rfl : g₁ = g := Option.some.inj (hjoins.group.symm.trans hg)
      exact ⟨g₁.add clt, hjoins.group_added, hadd clt⟩
    · refine ⟨g, ?_, le_rfl, fun i hi => rfl⟩
      rw [hjoins.groups_eq, List.getElem?_set_ne hk, hg]
  | @created hact clt hclt hroom reg' hjoins =>
    have hlt := (List.getElem?_eq_some_iff.1 hg).1
    refine ⟨g, ?_, le_rfl, fun i hi => rfl⟩
    rw [hjoins.groups_eq, List.getElem?_set_ne hlt.ne', Registry.addGroup,
      List.getElem?_append_left hlt, hg]

end Registry

namespace Chat

variable {s s' s₁ : Chat} {c : Conversation} {p : Prop} {l : Label} {uid : ℤ}

/-- How often a client is among the members that are counted. -/
def slots (s : Chat) (gid uid : ℤ) : ℕ :=
  match s.reg.groups[gid.toNat]? with
  | some g => (List.range g.numClients.toNat).countP fun i => s.memberCid gid.toNat i = some uid
  | none => 0

/-- The copies for a client that the loop of `send_group_message` has still to send. -/
def pending (s : Chat) (c : Conversation) (uid : ℤ) : List Message :=
  match s.forwarding with
  | some f => (List.range' f.i (f.numClients.toNat - f.i)).filterMap fun i =>
      if s.memberCid f.grp i = some uid then c.pick f.msg else none
  | none => []

/-! ## Members that are counted do not change -/

theorem memberCid_eq (s : Chat) (grp i : ℕ) : s.memberCid grp i =
    if i < maxEntries then
      s.reg.groups[grp]?.bind fun g => (g.clients i).bind fun m => s.reg.cids[m]?
    else none := by
  unfold memberCid
  split_ifs with hi
  · refine congrArg _ (funext fun g => congrArg _ (funext fun m => ?_))
    rw [Registry.cids, List.getElem?_map]
    cases s.reg.clients[m]? <;> rfl
  · rfl

/-- A control message leaves the members that are counted. -/
theorem memberCid_of_controlled {cmsg : ControlMessage} {queue : ℤ} {garbage : Garbage}
    {cres : ControlResponse} (hfull : s.reg.Full)
    (hc : s.reg.Controlled cmsg queue garbage s'.reg cres) {grp i : ℕ} {g : Group}
    (hg : s.reg.groups[grp]? = some g) (hi : i < g.numClients.toNat) :
    s'.memberCid grp i = s.memberCid grp i := by
  obtain ⟨g', hg', -, hclients⟩ := hc.group_grows hg
  obtain ⟨m, hm, hlt⟩ := (hfull grp g hg).2 i hi
  have hcid : s'.reg.cids[m]? = s.reg.cids[m]? := by
    obtain ⟨rest, hrest⟩ := hc.grows.cids
    rw [← hrest, List.getElem?_append_left]
    rwa [Registry.cids, List.length_map]
  rw [memberCid_eq, memberCid_eq, hg, hg', Option.bind_some, Option.bind_some, hclients i hi, hm,
    Option.bind_some, Option.bind_some, hcid]

/-- The groups are in order, and the loop is at a group that has the members it counts. -/
structure Counted (s : Chat) : Prop where
  full : s.reg.Full
  forwarding : ∀ f ∈ s.forwarding, ∃ g, s.reg.groups[f.grp]? = some g ∧
    f.numClients ≤ g.numClients

theorem counted_start (queues : Queues) : Counted (start queues) where
  full := Registry.full_init
  forwarding f hf := by cases hf

theorem reg_of_msgrcv {q : Queue} {t : ℤ} {item : Item} (h : s.msgrcv q t = some (item, s₁)) :
    s₁.reg = s.reg ∧ s₁.forwarding = s.forwarding := by
  obtain ⟨-, -, msgs, -, rfl⟩ := exists_of_msgrcv h
  exact ⟨rfl, rfl⟩

theorem pending_congr (hreg : s'.reg = s.reg) (hfor : s'.forwarding = s.forwarding) :
    s'.pending c uid = s.pending c uid := by
  simp only [pending, memberCid_eq, hreg, hfor]

/-- New members get no copy of a message that is on its way. -/
theorem pending_of_controlled {cmsg : ControlMessage} {queue : ℤ} {garbage : Garbage}
    {cres : ControlResponse} (h : Counted s)
    (hc : s.reg.Controlled cmsg queue garbage s'.reg cres) (hf : s'.forwarding = s.forwarding) :
    s'.pending c uid = s.pending c uid := by
  unfold pending
  rw [hf]
  cases hfor : s.forwarding with
  | none => rfl
  | some f =>
    obtain ⟨g, hg, hle⟩ := h.forwarding f hfor
    refine List.filterMap_congr fun i hi => ?_
    have hlt : i < g.numClients.toNat := by
      have := List.mem_range'_1.1 hi
      omega
    rw [memberCid_of_controlled h.full hc hg hlt]

end Chat

/-- The copies for a client of what the server takes. -/
def Conversation.copies (c : Conversation) (s : Chat) (uid : ℤ) (l : Chat.Label) : List Message :=
  (c.handled s l).flatMap fun m => List.replicate (s.slots c.dst uid) m

namespace Chat

variable {s s' s₁ : Chat} {c : Conversation} {p : Prop} {l : Label} {uid : ℤ}

/-- A step in which `msgsnd` does not fail, and `malloc` leaves no members. -/
def Sound : Label → Prop
  | .fail _ => False
  | .sendToMember sent => sent = true
  | .handleControlMsgs _ garbage => garbage.numClients = 0
  | _ => True

instance : ∀ l, Decidable (Sound l)
  | .fail _ => .isFalse id
  | .sendToMember sent => inferInstanceAs (Decidable (sent = true))
  | .handleControlMsgs _ garbage => inferInstanceAs (Decidable (garbage.numClients = 0))
  | .tick | .flush _ | .handleGroupSendMsgs | .handleClientSendMsgs | .handleQueries | .control ..
  | .query .. | .sendMessage .. | .handleMessages .. | .read .. | .receiveControl ..
  | .receiveQuery .. => .isTrue trivial

theorem delivers_of_sound (h : Sound l) : Delivers l := by
  cases l with
  | fail t => exact h
  | _ => trivial

theorem Counted.of_eq (h : Counted s) (hreg : s'.reg = s.reg)
    (hfor : ∀ f ∈ s'.forwarding, ∃ g, s.reg.groups[f.grp]? = some g ∧
      f.numClients ≤ g.numClients) : Counted s' where
  full := by rw [hreg]; exact h.full
  forwarding := by rw [hreg]; exact hfor

/-- A message is taken, and perhaps others are held. -/
theorem Counted.of_msgrcv (h : Counted s) {q : Queue} {t : ℤ} {item : Item}
    (hrcv : s.msgrcv q t = some (item, s₁)) (hreg : s'.reg = s₁.reg)
    (hfor : s'.forwarding = s₁.forwarding) : Counted s' := by
  obtain ⟨hreg', hfor'⟩ := reg_of_msgrcv hrcv
  exact h.of_eq (hreg.trans hreg') fun f hf => h.forwarding f (hfor.trans hfor' ▸ hf)

/-- Every step keeps the groups in order. -/
theorem counted_step (h : Inv s) (hcounted : Counted s) (hm : Move s l s') (hsound : Sound l) :
    Counted s' := by
  cases hm with
  | tick | flush | control | query | write => exact hcounted.of_eq rfl hcounted.forwarding
  | lost => cases hsound
  | distribute s₁ msg grp g hrcv hgrp hg =>
    refine hcounted.of_eq (reg_of_msgrcv hrcv).1 fun f hf => ?_
    obtain rfl := Option.some.inj hf
    exact ⟨g, hg, le_rfl⟩
  | toMember f cid hf hi hcid =>
    refine hcounted.of_eq rfl fun f' hf' => ?_
    obtain rfl := Option.some.inj hf'
    exact hcounted.forwarding f hf
  | failed | allSent => exact hcounted.of_eq rfl fun f' hf' => by cases hf'
  | manage queue garbage s₁ cmsg reg q cres hrcv hreg =>
    have hc := h.wellFormed.controlled (Registry.handleControlMsgs_eq_some_iff.1 hreg).1
    refine ⟨hc.full hcounted.full hsound, fun f hf => ?_⟩
    obtain ⟨g, hg, hle⟩ := hcounted.forwarding f ((reg_of_msgrcv hrcv).2 ▸ hf)
    obtain ⟨g', hg', hle', -⟩ := hc.group_grows hg
    exact ⟨g', hg', hle.trans hle'⟩
  | toClient s₁ msg hrcv => exact hcounted.of_msgrcv hrcv rfl rfl
  | answer s₁ query q qs hrcv => exact hcounted.of_msgrcv hrcv rfl rfl
  | drop uid pid s₁ msg hrcv => exact hcounted.of_msgrcv hrcv rfl rfl
  | route uid pid s₁ type msg hrcv => exact hcounted.of_msgrcv hrcv rfl rfl
  | read uid pid target s₁ item hrcv => exact hcounted.of_msgrcv hrcv rfl rfl
  | receiveControl uid pid s₁ item hrcv => exact hcounted.of_msgrcv hrcv rfl rfl
  | receiveQuery uid pid s₁ item hrcv => exact hcounted.of_msgrcv hrcv rfl rfl

/-! ## The second stage -/

/-- What the queue gains is what is no longer pending. -/
theorem keeps_pending {w w' q q' inp new out : List Message} (hw : Keeps p (w ++ new) (out ++ w'))
    (hq : q ++ inp = new ++ q') : Keeps p (w ++ q ++ inp) (out ++ (w' ++ q')) := by
  rw [List.append_assoc, hq, ← List.append_assoc, ← List.append_assoc]
  exact hw.append_right q'

/-- The loop does not go on. -/
theorem keeps_pending_of_eq {k : Queue × ℤ} {out : List Message}
    (hw : Keeps p (s.waiting c k ++ []) (out ++ s'.waiting c k)) (hreg : s'.reg = s.reg)
    (hfor : s'.forwarding = s.forwarding) :
    Keeps p (s.waiting c k ++ s.pending c uid ++ [])
      (out ++ (s'.waiting c k ++ s'.pending c uid)) :=
  keeps_pending hw (by rw [List.append_nil, List.nil_append, pending_congr hreg hfor])

theorem filterMap_ite_eq {P : ℕ → Prop} [DecidablePred P] (m : Option Message) (is : List ℕ) :
    (is.filterMap fun i => if P i then m else none) =
      m.toList.flatMap fun m => List.replicate (is.countP fun i => P i) m := by
  cases m with
  | none => simp
  | some m =>
    induction is with
    | nil => rfl
    | cons i is ih =>
      by_cases hi : P i <;> simp_all [List.replicate_succ]

/-- A message is sent that no thread has one of in hand, if the order matters. -/
theorem keeps_msgsnd {k : Queue × ℤ} {q : Queue} {item : Item}
    (h : p → ∀ h ∈ s.hands, c.view k h.2 = none) :
    Keeps p (s.waiting c k ++ (c.view k (q, item)).toList) ((s.msgsnd q item).waiting c k) := by
  refine ⟨?_, fun hp => (waiting_msgsnd_of_hands (h hp)).symm⟩
  simp only [waiting, entries, msgsnd, List.filterMap_append, filterMap_singleton, List.append_assoc]
  exact List.perm_append_comm.append_left _

/-- A message that is taken is to be sent to each member. -/
theorem pending_distribute (h : Inv s) (hc : c.type = .group) {msg : Message} {grp : ℕ} {g : Group}
    (hrcv : s.msgrcv .server groupMessage = some (.chat msg, s₁))
    (hgrp : s.reg.findGroupById msg.dst = some (some grp)) (hg : s.reg.groups[grp]? = some g) :
    pending { s₁ with forwarding := some ⟨grp, { msg with protocol := groupMessage }, 0,
        g.numClients⟩ } c uid = c.copies s uid .handleGroupSendMsgs := by
  obtain ⟨hok, hmtype⟩ := chat_of_msgrcv h hrcv trivial
  have hprotocol : msg.protocol = groupMessage := (hok.unhandled (.inr hmtype)).2.trans hmtype
  have hsame : c.pick { msg with protocol := groupMessage } = c.pick msg :=
    congrArg (fun n => c.pick { msg with protocol := n }) hprotocol.symm
  have htaken : s.taken .handleGroupSendMsgs = some (.chat msg) := taken_of_msgrcv hrcv
  have hmember : ∀ i, memberCid { s₁ with forwarding := some ⟨grp,
      { msg with protocol := groupMessage }, 0, g.numClients⟩ } grp i = s.memberCid grp i := by
    intro i
    rw [memberCid_eq, memberCid_eq, (reg_of_msgrcv hrcv).1]
  have hhandled : c.handled s .handleGroupSendMsgs = (c.pick msg).toList := by
    rw [Conversation.handled, if_pos hc.symm, Conversation.taken_eq htaken]
    rfl
  simp only [pending, hmember, hsame, Nat.sub_zero, ← List.range_eq_range']
  rw [filterMap_ite_eq, Conversation.copies, hhandled]
  cases hpick : c.pick msg with
  | none => rfl
  | some m =>
    have hdst : msg.dst = c.dst := (Conversation.protocol_of_pick (by rw [hpick]; rfl)).2.2
    obtain ⟨-, rfl⟩ := h.wellFormed.findGroupById_eq_some_some.1 hgrp
    have hslots : s.slots c.dst uid =
        (List.range g.numClients.toNat).countP fun i => s.memberCid c.dst.toNat i = some uid := by
      rw [slots, ← hdst, hg]
    rw [hslots, ← hdst]

/-- The loop sends a copy to the next member. -/
theorem pending_toMember {f : Forward} {cid : ℤ} (hf : s.forwarding = some f)
    (hi : (f.i : ℤ) < f.numClients) (hcid : s.memberCid f.grp f.i = some cid) :
    s.pending c uid = (c.view (Conversation.toRouter uid)
        (.server, .chat { f.msg with mtype := cid + 5000 })).toList ++
      pending { s.msgsnd .server (.chat { f.msg with mtype := cid + 5000 }) with
        forwarding := some { f with i := f.i + 1 } } c uid := by
  have hrange : List.range' f.i (f.numClients.toNat - f.i) =
      f.i :: List.range' (f.i + 1) (f.numClients.toNat - (f.i + 1)) := by
    rw [← List.range'_succ]
    congr 1
    omega
  have hview : c.view (Conversation.toRouter uid)
      (.server, .chat { f.msg with mtype := cid + 5000 }) =
        if s.memberCid f.grp f.i = some uid then c.pick f.msg else none := by
    rw [Conversation.view_chat_mtype, hcid]
    exact if_congr (toRouter_eq_iff.trans (Option.some_inj.symm)) rfl rfl
  rw [pending, hf, hview]
  simp only [hrange]
  cases hfirst : if s.memberCid f.grp f.i = some uid then c.pick f.msg else none with
  | none => exact List.filterMap_cons_none hfirst
  | some m => exact List.filterMap_cons_some hfirst

/-- The second stage, for a member of a group : what the server has taken waits for a router,
or for the loop of `send_group_message`. -/
theorem keeps_toRouter_group (h : Inv s) (hcounted : Counted s) (hm : Move s l s')
    (henabled : s.Enabled l) (hc : c.type = .group) (huid : IsUid uid) (hsound : Sound l)
    (hT : p → ∀ h ∈ s.hands, c.view (Conversation.toRouter uid) h.2 = none) :
    Keeps p (s.waiting c (Conversation.toRouter uid) ++ s.pending c uid ++ c.copies s uid l)
      ((c.routed s uid l).map Prod.snd ++
        (s'.waiting c (Conversation.toRouter uid) ++ s'.pending c uid)) := by
  have hidle := fun hl => keeps_idle (p := p) (.of_eq (waiting_of_not_carries (c := c)
    (k := Conversation.toRouter uid) h hm henabled hl).symm)
  cases hm with
  | tick | control | query => exact keeps_pending_of_eq (hidle rfl) rfl rfl
  | answer s₁ query q qs hrcv =>
    obtain ⟨hreg, hfor⟩ := reg_of_msgrcv hrcv
    exact keeps_pending_of_eq (hidle rfl) hreg hfor
  | receiveControl uid' pid s₁ item hrcv =>
    obtain ⟨hreg, hfor⟩ := reg_of_msgrcv hrcv
    exact keeps_pending_of_eq (hidle rfl) hreg hfor
  | receiveQuery uid' pid s₁ item hrcv =>
    obtain ⟨hreg, hfor⟩ := reg_of_msgrcv hrcv
    exact keeps_pending_of_eq (hidle rfl) hreg hfor
  | manage queue garbage s₁ cmsg reg q cres hrcv hreg =>
    have hcontrolled := h.wellFormed.controlled (Registry.handleControlMsgs_eq_some_iff.1 hreg).1
    refine keeps_pending (hidle rfl) ((List.append_nil _).trans (Eq.symm ?_))
    exact pending_of_controlled hcounted hcontrolled (reg_of_msgrcv hrcv).2
  | flush t e rest hr =>
    refine keeps_pending_of_eq (keeps_idle (keeps_flush hr (T := t) fun hp e he hv => ?_)) rfl rfl
    rw [hT hp e he] at hv
    cases hv
  | lost => cases hsound
  | distribute s₁ msg grp g hrcv hgrp hg =>
    have hnone : s.pending c uid = [] := by
      have : s.forwarding = none := Option.isNone_iff_eq_none.1 henabled.2
      rw [pending, this]
    refine keeps_pending (keeps_of_msgrcv_ne h hrcv trivial (toRouter_ne huid (by decide))
      (List.append_nil _).symm) ?_
    rw [hnone, pending_distribute h hc hrcv hgrp hg]
  | toMember f cid hf hi hcid =>
    refine keeps_pending (keeps_msgsnd hT) ((List.append_nil _).trans ?_)
    exact pending_toMember hf hi hcid
  | failed f cid hf hi hcid => cases hsound
  | allSent sent f hf hi =>
    have hnone : s.pending c uid = [] := by
      have hzero : f.numClients.toNat - f.i = 0 := by omega
      simp only [pending, hf, hzero]
      rfl
    refine keeps_pending (keeps_idle (.refl _)) ?_
    rw [hnone]
    rfl
  | toClient s₁ msg hrcv hcid =>
    obtain ⟨hreg, hfor⟩ := reg_of_msgrcv hrcv
    have hnone : c.copies s uid .handleClientSendMsgs = [] := by
      rw [Conversation.copies, Conversation.handled, if_neg (by rw [hc]; decide)]
      rfl
    rw [hnone]
    refine keeps_pending_of_eq (keeps_of_msgrcv_ne h hrcv trivial (toRouter_ne huid (by decide))
      (waiting_hold_of_none fun e he => ?_)) hreg hfor
    rw [List.mem_singleton.1 he, Conversation.view_chat, Conversation.pick_eq_none, ite_self]
    rw [hc]
    exact show clientMessage ≠ MessageType.group.protocol by decide
  | write uid' pid type msg =>
    refine keeps_pending_of_eq (keeps_idle (.of_eq ?_)) ?_ ?_
    · rw [waiting_sendMessage, List.filterMap_eq_nil_iff.2, List.append_nil]
      exact fun e he => Conversation.view_eq_none (key_ne_toRouter huid he)
    · cases type <;> rfl
    · cases type <;> rfl
  | drop uid' pid s₁ msg hrcv hdrop =>
    obtain ⟨hreg, hfor⟩ := reg_of_msgrcv hrcv
    exact keeps_pending_of_eq
      (keeps_of_msgrcv h hrcv trivial (List.append_nil _).symm (routed_eq hrcv)) hreg hfor
  | route uid' pid s₁ type msg hrcv hlive hprotocol =>
    obtain ⟨hreg, hfor⟩ := reg_of_msgrcv hrcv
    refine keeps_pending_of_eq (keeps_of_msgrcv h hrcv trivial (waiting_hold_of_none fun e he => ?_)
      (routed_eq hrcv)) hreg hfor
    rw [List.mem_singleton.1 he]
    exact Conversation.view_eq_none (by simp [Entry.key, Conversation.toRouter])
  | read uid' pid target s₁ item hrcv =>
    obtain ⟨hreg, hfor⟩ := reg_of_msgrcv hrcv
    exact keeps_pending_of_eq (keeps_of_msgrcv_ne h hrcv (owned_of_read henabled)
      (by simp [Conversation.toRouter]) (List.append_nil _).symm) hreg hfor

/-- While the server lives and no `msgsnd` fails, each message of a user to a group waits for the
server or has been taken by it, and for each pointer to a member that was counted then, a copy
waits in the loop of the server or for a router of the member, or has been taken by a router.
What routers have passed on has been printed or waits for a loop. With one process that sends
and one router the order is kept. -/
theorem keeps_group_run (queues : Queues) (hapart : queues.Apart) (src gid uid : ℤ)
    (huid : IsUid uid) (ls : List Label) (hsound : ∀ l ∈ ls, Sound l)
    (hr : run chatStep (start queues) ls = some s) (hlive : s.crashed = false) :
    let c : Conversation := ⟨.group, src, gid⟩
    let routed := Lib.outputs chatStep (fun s l => c.routed s uid l) (start queues) ls
    Keeps (Ordered c uid ls) (Lib.outputs chatStep (fun _ l => c.sent l) (start queues) ls)
      (Lib.outputs chatStep (fun s l => c.handled s l) (start queues) ls ++
        s.waiting c c.toServer) ∧
    Keeps (Ordered c uid ls) (Lib.outputs chatStep (fun s l => c.copies s uid l) (start queues) ls)
      (routed.map Prod.snd ++
        (s.waiting c (Conversation.toRouter uid) ++ s.pending c uid)) ∧
    Keeps (Ordered c uid ls) (routed.filterMap Conversation.pass)
      (Lib.outputs chatStep (fun s l => c.printed s uid l) (start queues) ls ++
        s.waiting c (c.toLoop uid)) := by
  intro c routed
  have hown : c.type = .client → c.src ≠ uid := fun h => by cases h
  obtain ⟨hserver, hloop⟩ := keeps_ends hapart huid hown
    (fun l hl => delivers_of_sound (hsound l hl)) hr hlive
  have hnone : ∀ {p r : ℕ} {h : Thread × Entry}, HandOk c uid p r h →
      c.view (Conversation.toRouter uid) h.2 = none := fun hok => by
    by_contra hview
    cases (hok.toRouter (Option.isSome_iff_ne_none.2 hview)).1
  have hrouter := keeps_of_handOk (c := c) hapart huid hown (d := Sound) (counted_start queues)
    rfl (fun p r s l s' h hh hcounted hl henabled hm => ⟨counted_step h hcounted hm hl,
      keeps_toRouter_group h hcounted hm henabled rfl huid hl fun ho e he => hnone (hh ho e he)⟩)
    hsound hr hlive
  rw [Lib.outputs_map] at hrouter
  exact ⟨hserver, hrouter, hloop⟩

/-- A control message of a user, up to the answer. -/
def controlled (uid : ℤ) (action : Action) : List Label :=
  [.control uid 0 ⟨['/'], ['u'], action, uid, 0⟩, .handleControlMsgs (uid + 1) ⟨0, fun _ => none⟩,
    .flush .control, .receiveControl uid 0]

/-- User 1000 sends to a group of two, of which the other one reads. -/
def groupText : List Label :=
  controlled 1000 .registerClient ++ controlled 1000 .createGroup ++
    controlled 1001 .registerClient ++ controlled 1001 .joinGroup ++
      [.sendMessage 1000 0 .group ⟨0, 0, 0, 0, 0, 0, 0, ['u'], ['h', 'i']⟩,
        .flush (.main 1000 0), .handleGroupSendMsgs, .sendToMember true, .sendToMember true,
        .handleMessages 1001 0, .flush (.router 1001 0), .read 1001 0 (.group 0)]

theorem keeps_group_run_groupText : ∃ s, run chatStep (start ownQueues) groupText = some s ∧
    (Lib.outputs chatStep (fun s l => (⟨.group, 1000, 0⟩ : Conversation).copies s 1001 l)
      (start ownQueues) groupText).Perm
        ((Lib.outputs chatStep (fun s l => (⟨.group, 1000, 0⟩ : Conversation).routed s 1001 l)
          (start ownQueues) groupText).map Prod.snd ++
          (s.waiting ⟨.group, 1000, 0⟩ (.server, 6001) ++ s.pending ⟨.group, 1000, 0⟩ 1001)) := by
  have hend : (run chatStep (start ownQueues) groupText).map Chat.crashed = some false := by decide
  obtain ⟨s, hs, hlive⟩ := Option.map_eq_some_iff.1 hend
  exact ⟨s, hs, (keeps_group_run ownQueues apart_ownQueues 1000 0 1001 (by decide) groupText
    (by decide) hs hlive).2.1.1⟩

end Chat

end NetProg.MsgQueue
