import NetProg.MsgQueue.Server

/-!
# When the server survives

No handler of the server looks at the result of a lookup before it follows the pointer, and
none looks at how full an array is. `Served` says of a message that its handler ends without
a fault : it names clients and groups that exist, and what it adds to has room. A message to
a group also needs the members that are counted to be there.

`survives_iff` says that the server gets through a sequence of messages exactly when all of
them are served. A message that names an unknown client or group never is.
-/

namespace NetProg.MsgQueue

namespace Registry

variable (s : Registry)

/-- A client with this id is registered. -/
def Known (cid : ℤ) : Prop :=
  ∃ c ∈ s.clients, c.cid = cid

instance (cid : ℤ) : Decidable (s.Known cid) :=
  inferInstanceAs (Decidable (∃ c ∈ s.clients, c.cid = cid))

/-- A group with this id exists. -/
def HasGroup (gid : ℤ) : Prop :=
  0 ≤ gid ∧ gid < s.groups.length

instance (gid : ℤ) : Decidable (s.HasGroup gid) :=
  inferInstanceAs (Decidable (_ ∧ _))

/-- The id of a group is its index. -/
structure WellFormed : Prop where
  gid_eq : ∀ (k : ℕ) (g : Group), s.groups[k]? = some g → g.gid = k
  nextGroupId_eq : s.nextGroupId = s.groups.length

variable {s}

theorem wellFormed_init : init.WellFormed where
  gid_eq k g hg := by cases hg
  nextGroupId_eq := rfl

/-! ## Lookups -/

theorem findClientById_eq_some {cid : ℤ} {i : ℕ} (h : s.findClientById cid = some i) :
    ∃ c, s.clients[i]? = some c ∧ c.cid = cid := by
  obtain ⟨hi, hc, -⟩ := List.findIdx?_eq_some_iff_getElem.1 h
  exact ⟨s.clients[i], List.getElem?_eq_getElem hi, by simpa using hc⟩

theorem findClientById_eq_none_iff {cid : ℤ} : s.findClientById cid = none ↔ ¬s.Known cid := by
  simp [findClientById, Known, List.findIdx?_eq_none_iff]

/-- The two ways a lookup of a client ends. -/
theorem findClientById_cases (s : Registry) (cid : ℤ) :
    (¬s.Known cid ∧ s.findClientById cid = none) ∨
      ∃ i c, s.Known cid ∧ s.findClientById cid = some i ∧ s.clients[i]? = some c ∧ c.cid = cid := by
  cases hfind : s.findClientById cid with
  | none => exact .inl ⟨findClientById_eq_none_iff.1 hfind, rfl⟩
  | some i =>
    obtain ⟨c, hc, hcid⟩ := findClientById_eq_some hfind
    exact .inr ⟨i, c, ⟨c, List.mem_of_getElem? hc, hcid⟩, rfl, hc, hcid⟩

theorem WellFormed.search_eq_none (h : s.WellFormed) {gid : ℤ} (hgid : s.groups.length ≤ gid) :
    (s.groups.findIdx? fun g => g.gid = gid) = none := by
  refine List.findIdx?_eq_none_iff.2 fun g hg => ?_
  obtain ⟨k, hk⟩ := List.mem_iff_getElem?.1 hg
  have hlt := (List.getElem?_eq_some_iff.1 hk).1
  have := h.gid_eq k g hk
  simp only [decide_eq_false_iff_not]
  omega

/-- A negative id makes the lookup leave the array. -/
theorem WellFormed.findGroupById_eq (h : s.WellFormed) (gid : ℤ) :
    s.findGroupById gid =
      if gid < 0 then none
      else some (if gid < s.groups.length then some gid.toNat else none) := by
  simp only [findGroupById]
  by_cases hneg : gid < 0
  · rw [if_pos (by omega), if_pos hneg, if_pos hneg]
  · rw [if_neg hneg, if_neg hneg]
    by_cases hlt : gid < s.groups.length
    · have hk : gid.toNat < s.groups.length := by omega
      have hgid := h.gid_eq gid.toNat _ (List.getElem?_eq_getElem hk)
      rw [if_pos hlt, if_pos hlt, if_pos]
      rw [List.getElem?_eq_getElem hk, Option.any_some, decide_eq_true_iff, hgid]
      omega
    · rw [if_neg hlt, if_neg hlt, h.search_eq_none (by omega)]

theorem WellFormed.findGroupById_eq_some_some (h : s.WellFormed) {gid : ℤ} {k : ℕ} :
    s.findGroupById gid = some (some k) ↔ s.HasGroup gid ∧ gid.toNat = k := by
  rw [h.findGroupById_eq, HasGroup]
  split_ifs <;> simp <;> omega

/-! ## Changes of the registry -/

/-- The ids of the clients. -/
def cids (s : Registry) : List ℤ :=
  s.clients.map Client.cid

theorem known_iff {cid : ℤ} : s.Known cid ↔ cid ∈ s.cids := by
  simp [Known, cids]

/-- What `join_group` does. -/
structure Joins (s s' : Registry) (grp clt : ℕ) (g : Group) : Prop where
  group : s.groups[grp]? = some g
  lt_clients : clt < s.clients.length
  nonneg : 0 ≤ g.numClients
  lt_max : g.numClients < maxEntries
  cids_eq : s'.cids = s.cids
  groups_eq : s'.groups = s.groups.set grp (g.add clt)
  nextGroupId_eq : s'.nextGroupId = s.nextGroupId

theorem Joins.group_added {s' : Registry} {grp clt : ℕ} {g : Group} (h : Joins s s' grp clt g) :
    s'.groups[grp]? = some (g.add clt) := by
  rw [h.groups_eq, List.getElem?_set_self (List.getElem?_eq_some_iff.1 h.group).1]

theorem joins_of_joinGroup {s' : Registry} {grp : ℕ} {clt : Option ℕ}
    (h : s.joinGroup grp clt = some s') : ∃ i g, clt = some i ∧ Joins s s' grp i g := by
  obtain ⟨i, rfl, h⟩ := Option.bind_eq_some_iff.1 h
  obtain ⟨c, hc, h⟩ := Option.bind_eq_some_iff.1 h
  obtain ⟨g, hg, h⟩ := Option.bind_eq_some_iff.1 h
  split_ifs at h with hroom
  obtain rfl := Option.some.inj h
  refine ⟨i, g, rfl, hg, (List.getElem?_eq_some_iff.1 hc).1, hroom.1, hroom.2, ?_, rfl, rfl⟩
  have hi := (List.getElem?_eq_some_iff.1 hc).1
  refine List.ext_getElem? fun j => ?_
  simp only [cids, List.getElem?_map, List.getElem?_set]
  by_cases hij : i = j
  · subst hij
    rw [if_pos rfl, if_pos hi, hc]
    rfl
  · rw [if_neg hij]

theorem joinGroup_isSome {grp clt : ℕ} {g : Group} (hclt : clt < s.clients.length)
    (hg : s.groups[grp]? = some g) (hnonneg : 0 ≤ g.numClients) (hlt : g.numClients < maxEntries) :
    (s.joinGroup grp (some clt)).isSome := by
  simp [joinGroup, hclt, hg, hnonneg, hlt]

theorem WellFormed.joins {s' : Registry} {grp clt : ℕ} {g : Group} (h : s.WellFormed)
    (hj : Joins s s' grp clt g) : s'.WellFormed where
  gid_eq k g' hg' := by
    rw [hj.groups_eq] at hg'
    by_cases hk : grp = k
    · subst hk
      obtain ⟨hlt, -⟩ := List.getElem?_eq_some_iff.1 hj.group
      rw [List.getElem?_set_self hlt] at hg'
      obtain rfl := Option.some.inj hg'
      exact h.gid_eq grp g hj.group
    · rw [List.getElem?_set_ne hk] at hg'
      exact h.gid_eq k g' hg'
  nextGroupId_eq := by
    rw [hj.nextGroupId_eq, hj.groups_eq, List.length_set, h.nextGroupId_eq]

theorem wellFormed_addGroup (h : s.WellFormed) (name : List Char) (garbage : Garbage) :
    (s.addGroup name garbage).WellFormed where
  gid_eq k g hg := by
    rw [addGroup, List.getElem?_append] at hg
    split_ifs at hg with hk
    · exact h.gid_eq k g hg
    · obtain ⟨hlt, rfl⟩ := List.getElem?_eq_some_iff.1 hg
      have hzero : k = s.groups.length := by
        simp only [List.length_singleton] at hlt
        omega
      simp only [hzero, Nat.sub_self, List.getElem_singleton]
      exact h.nextGroupId_eq
  nextGroupId_eq := by
    simp [addGroup, h.nextGroupId_eq]

/-- What the `switch` of `handle_control_msgs` does. -/
inductive Controlled (s : Registry) (cmsg : ControlMessage) (queue : ℤ) (garbage : Garbage) :
    Registry → ControlResponse → Prop
  | known (hact : cmsg.action = .registerClient) (hknown : s.Known cmsg.src) :
    Controlled s cmsg queue garbage s ⟨cmsg.action, statusOk, none⟩
  | failed (hact : cmsg.action = .registerClient) (hknown : ¬s.Known cmsg.src) (hqueue : queue < 0) :
    Controlled s cmsg queue garbage s ⟨cmsg.action, statusOk, none⟩
  | registered (hact : cmsg.action = .registerClient) (hknown : ¬s.Known cmsg.src)
    (hqueue : 0 ≤ queue) (hroom : s.clients.length < maxEntries) (c : Client)
    (hcid : c.cid = cmsg.src) :
    Controlled s cmsg queue garbage { s with clients := s.clients ++ [c] }
      ⟨cmsg.action, statusOk, none⟩
  | joined (hact : cmsg.action = .joinGroup) {clt : ℕ} (hclt : s.findClientById cmsg.src = some clt)
    (hgroup : s.HasGroup cmsg.gid) {s' : Registry} {g : Group}
    (hjoins : Joins s s' cmsg.gid.toNat clt g) :
    Controlled s cmsg queue garbage s' ⟨cmsg.action, statusOk, none⟩
  | created (hact : cmsg.action = .createGroup) {clt : ℕ}
    (hclt : s.findClientById cmsg.src = some clt) (hroom : s.groups.length < maxEntries)
    {s' : Registry}
    (hjoins : Joins (s.addGroup cmsg.name garbage) s' s.groups.length clt
      (newGroup s.groups.length cmsg.name garbage)) :
    Controlled s cmsg queue garbage s' ⟨cmsg.action, statusOk, some s.groups.length⟩
  | refused (hact : cmsg.action = .leaveGroup ∨ ∃ n, cmsg.action = .other n) :
    Controlled s cmsg queue garbage s ⟨cmsg.action, statusError, none⟩

theorem WellFormed.controlled (h : s.WellFormed) {cmsg : ControlMessage} {queue : ℤ}
    {garbage : Garbage} {s' : Registry} {cres : ControlResponse}
    (hc : s.control cmsg queue garbage = some (s', cres)) :
    Controlled s cmsg queue garbage s' cres := by
  unfold control at hc
  cases hact : cmsg.action with
  | registerClient =>
    rw [hact] at hc
    obtain ⟨⟨s₁, clt⟩, hreg, heq⟩ := Option.map_eq_some_iff.1 hc
    obtain ⟨rfl, rfl⟩ := Prod.mk.inj heq
    unfold registerClient at hreg
    rcases findClientById_cases s cmsg.src with ⟨hknown, hfind⟩ | ⟨i, c, hknown, hfind, -⟩
    · rw [hfind] at hreg
      simp only at hreg
      split_ifs at hreg with hqueue hroom
      · cases hreg
        exact hact ▸ .failed hact hknown hqueue
      · cases hreg
        exact hact ▸ .registered hact hknown (not_lt.1 hqueue) hroom _ rfl
    · rw [hfind] at hreg
      cases hreg
      exact hact ▸ .known hact hknown
  | joinGroup =>
    rw [hact] at hc
    obtain ⟨grp, hgrp, hc⟩ := Option.bind_eq_some_iff.1 hc
    obtain ⟨k, hk, hrest⟩ := Option.bind_eq_some_iff.1 hc
    obtain ⟨s₁, hjoin, heq⟩ := Option.bind_eq_some_iff.1 hrest
    subst hk
    obtain ⟨rfl, rfl⟩ := Prod.mk.inj (Option.some.inj heq)
    obtain ⟨hgroup, rfl⟩ := h.findGroupById_eq_some_some.1 hgrp
    obtain ⟨i, g, hclt, hjoins⟩ := joins_of_joinGroup hjoin
    exact hact ▸ .joined hact hclt hgroup hjoins
  | createGroup =>
    rw [hact] at hc
    obtain ⟨⟨s₁, grp⟩, hcreate, hc⟩ := Option.bind_eq_some_iff.1 hc
    obtain ⟨g, hg, heq⟩ := Option.bind_eq_some_iff.1 hc
    obtain ⟨rfl, rfl⟩ := Prod.mk.inj (Option.some.inj heq)
    unfold createGroup at hcreate
    split_ifs at hcreate with hroom
    obtain ⟨s₂, hjoin, heq⟩ := Option.map_eq_some_iff.1 hcreate
    obtain ⟨rfl, rfl⟩ := Prod.mk.inj heq
    obtain ⟨i, g', hclt, hjoins⟩ := joins_of_joinGroup hjoin
    have hnew : g' = newGroup s.groups.length cmsg.name garbage := by
      have := hjoins.group
      rw [addGroup, List.getElem?_concat_length] at this
      rw [← Option.some.inj this, h.nextGroupId_eq]
    subst hnew
    obtain rfl : g = (newGroup s.groups.length cmsg.name garbage).add i :=
      Option.some.inj (hg.symm.trans hjoins.group_added)
    exact hact ▸ .created hact hclt hroom hjoins
  | leaveGroup =>
    rw [hact] at hc
    obtain ⟨rfl, rfl⟩ := Prod.mk.inj (Option.some.inj hc)
    exact hact ▸ .refused (.inl hact)
  | other n =>
    rw [hact] at hc
    obtain ⟨rfl, rfl⟩ := Prod.mk.inj (Option.some.inj hc)
    exact hact ▸ .refused (.inr ⟨n, hact⟩)

theorem Controlled.wellFormed {cmsg : ControlMessage} {queue : ℤ} {garbage : Garbage}
    {s' : Registry} {cres : ControlResponse} (h : s.WellFormed)
    (hc : Controlled s cmsg queue garbage s' cres) : s'.WellFormed := by
  cases hc with
  | known | failed | refused => exact h
  | registered => exact ⟨h.gid_eq, h.nextGroupId_eq⟩
  | joined hact hclt hgroup hjoins => exact h.joins hjoins
  | created hact hclt hroom hjoins => exact (wellFormed_addGroup h _ _).joins hjoins

/-- The answer goes to a client that is registered now. -/
theorem handleControlMsgs_eq_some_iff {cmsg : ControlMessage} {queue : ℤ} {garbage : Garbage}
    {s' : Registry} {q : ℤ} {cres : ControlResponse} :
    s.handleControlMsgs cmsg queue garbage = some (s', q, cres) ↔
      s.control cmsg queue garbage = some (s', cres) ∧
        ∃ i c, s'.findClientById cmsg.src = some i ∧ s'.clients[i]? = some c ∧ c.queue = q := by
  constructor
  · intro h
    obtain ⟨⟨s₁, r⟩, hcontrol, h⟩ := Option.bind_eq_some_iff.1 h
    obtain ⟨i, hi, h⟩ := Option.bind_eq_some_iff.1 h
    obtain ⟨c, hc, h⟩ := Option.bind_eq_some_iff.1 h
    cases h
    exact ⟨hcontrol, i, c, hi, hc, rfl⟩
  · rintro ⟨hcontrol, i, c, hi, hc, rfl⟩
    simp [handleControlMsgs, hcontrol, hi, hc]

theorem wellFormed_step {e : Event} {s' : Registry} (h : s.WellFormed) (hs : step s e = some s') :
    s'.WellFormed := by
  cases e with
  | control cmsg queue garbage =>
    obtain ⟨⟨s₁, q, cres⟩, hcontrol, rfl⟩ := Option.map_eq_some_iff.1 hs
    exact (h.controlled (handleControlMsgs_eq_some_iff.1 hcontrol).1).wellFormed h
  | query query =>
    obtain ⟨-, -, rfl⟩ := Option.map_eq_some_iff.1 hs
    exact h
  | groupMessage msg sent =>
    obtain ⟨-, -, rfl⟩ := Option.map_eq_some_iff.1 hs
    exact h
  | clientMessage msg =>
    obtain ⟨-, -, rfl⟩ := Option.map_eq_some_iff.1 hs
    exact h

/-! ## Messages that are served -/

/-- Member `i` of a group is a client, and so is entry `i` of all clients when the message to
the member is sent. -/
def CanSendTo (s : Registry) (g : Group) (sent : ℕ → Bool) (i : ℕ) : Prop :=
  i < maxEntries ∧ (∃ c, g.clients i = some c ∧ c < s.clients.length) ∧
    (sent i = true → i < s.clients.length)

/-- `send_group_message` gets through the members of the group that it comes to. -/
def CanSend (s : Registry) (g : Group) (sent : ℕ → Bool) : Prop :=
  ∀ i < g.numClients.toNat, (∀ j < i, sent j = true) → s.CanSendTo g sent i

/-- The handler of a message ends without a fault. -/
def Served (s : Registry) : Event → Prop
  | .control cmsg queue garbage =>
    match cmsg.action with
    | .registerClient => s.Known cmsg.src ∨ 0 ≤ queue ∧ s.clients.length < maxEntries
    | .joinGroup => s.Known cmsg.src ∧ s.HasGroup cmsg.gid ∧
        ∀ g ∈ s.groups[cmsg.gid.toNat]?, 0 ≤ g.numClients ∧ g.numClients < maxEntries
    | .createGroup => s.Known cmsg.src ∧ s.groups.length < maxEntries ∧
        0 ≤ garbage.numClients ∧ garbage.numClients < maxEntries
    | .leaveGroup | .other _ => s.Known cmsg.src
  | .query query => s.Known query.src
  | .groupMessage msg sent =>
    s.HasGroup msg.dst ∧ ∀ g ∈ s.groups[msg.dst.toNat]?, s.CanSend g sent
  | .clientMessage msg => s.Known msg.dst

/-- A message that names a client or a group that does not exist. -/
def NamesUnknown (s : Registry) : Event → Prop
  | .control cmsg _ _ =>
    cmsg.action ≠ .registerClient ∧ ¬s.Known cmsg.src ∨
      cmsg.action = .joinGroup ∧ ¬s.HasGroup cmsg.gid
  | .query query => ¬s.Known query.src ∨
      query.queryType = .client ∧ s.findClientByName query.content = none ∨
        query.queryType = .group ∧ s.findGroupByName query.content = none
  | .groupMessage msg _ => ¬s.HasGroup msg.dst
  | .clientMessage msg => ¬s.Known msg.dst

theorem findClientById_isSome_iff {cid : ℤ} :
    (∃ i c, s.findClientById cid = some i ∧ s.clients[i]? = some c) ↔ s.Known cid := by
  rcases findClientById_cases s cid with ⟨hknown, hfind⟩ | ⟨i, c, hknown, hfind, hc, -⟩
  · exact iff_of_false (by simp [hfind]) hknown
  · exact iff_of_true ⟨i, c, hfind, hc⟩ hknown

theorem handleControlMsgs_isSome_iff {cmsg : ControlMessage} {queue : ℤ} {garbage : Garbage} :
    (s.handleControlMsgs cmsg queue garbage).isSome ↔
      ∃ s' cres, s.control cmsg queue garbage = some (s', cres) ∧ s'.Known cmsg.src := by
  rw [Option.isSome_iff_exists]
  constructor
  · rintro ⟨⟨s', q, cres⟩, h⟩
    obtain ⟨hcontrol, i, c, hi, hc, -⟩ := handleControlMsgs_eq_some_iff.1 h
    exact ⟨s', cres, hcontrol, findClientById_isSome_iff.1 ⟨i, c, hi, hc⟩⟩
  · rintro ⟨s', cres, hcontrol, hknown⟩
    obtain ⟨i, c, hi, hc⟩ := findClientById_isSome_iff.2 hknown
    exact ⟨_, handleControlMsgs_eq_some_iff.2 ⟨hcontrol, i, c, hi, hc, rfl⟩⟩

theorem known_of_findClientById {cid : ℤ} {i : ℕ} (h : s.findClientById cid = some i) :
    s.Known cid := by
  obtain ⟨c, hc, hcid⟩ := findClientById_eq_some h
  exact ⟨c, List.mem_of_getElem? hc, hcid⟩

theorem served_of_control {cmsg : ControlMessage} {queue : ℤ} {garbage : Garbage}
    {s' : Registry} {cres : ControlResponse} (hc : Controlled s cmsg queue garbage s' cres)
    (hknown : s'.Known cmsg.src) : s.Served (.control cmsg queue garbage) := by
  cases hc with
  | known hact =>
    simp only [Served, hact]
    exact .inl hknown
  | failed hact hnot => exact absurd hknown hnot
  | registered hact hnot hqueue hroom =>
    simp only [Served, hact]
    exact .inr ⟨hqueue, hroom⟩
  | joined hact hclt hgroup hjoins =>
    simp only [Served, hact]
    refine ⟨known_of_findClientById hclt, hgroup, fun g hg => ?_⟩
    obtain rfl := Option.some.inj (hjoins.group.symm.trans hg)
    exact ⟨hjoins.nonneg, hjoins.lt_max⟩
  | created hact hclt hroom hjoins =>
    simp only [Served, hact]
    exact ⟨known_of_findClientById hclt, hroom, hjoins.nonneg, hjoins.lt_max⟩
  | refused hact =>
    rcases hact with hact | ⟨n, hact⟩
    · simpa only [Served, hact] using hknown
    · simpa only [Served, hact] using hknown

theorem control_of_served (h : s.WellFormed) {cmsg : ControlMessage} {queue : ℤ}
    {garbage : Garbage} (hserved : s.Served (.control cmsg queue garbage)) :
    ∃ s' cres, s.control cmsg queue garbage = some (s', cres) ∧ s'.Known cmsg.src := by
  unfold control
  cases hact : cmsg.action with
  | registerClient =>
    simp only [Served, hact] at hserved
    rcases findClientById_cases s cmsg.src with ⟨hnot, hfind⟩ | ⟨i, c, hknown, hfind, -⟩
    · obtain ⟨hqueue, hroom⟩ := hserved.resolve_left hnot
      simp only [registerClient, hfind, if_neg hqueue.not_gt, if_pos hroom]
      exact ⟨_, _, rfl, _, List.mem_append_right _ List.mem_cons_self, rfl⟩
    · simp only [registerClient, hfind]
      exact ⟨_, _, rfl, hknown⟩
  | joinGroup =>
    simp only [Served, hact] at hserved
    obtain ⟨hknown, hgroup, hroom⟩ := hserved
    obtain ⟨i, c, hfind, hc⟩ := findClientById_isSome_iff.2 hknown
    have hlt : cmsg.gid.toNat < s.groups.length := by
      have := hgroup.1
      have := hgroup.2
      omega
    obtain ⟨hnonneg, hmax⟩ := hroom _ (List.getElem?_eq_getElem hlt)
    obtain ⟨s', hs'⟩ := Option.isSome_iff_exists.1 (joinGroup_isSome
      (List.getElem?_eq_some_iff.1 hc).1 (List.getElem?_eq_getElem hlt) hnonneg hmax)
    obtain ⟨j, g, -, hjoins⟩ := joins_of_joinGroup hs'
    refine ⟨s', ⟨.joinGroup, statusOk, none⟩, ?_, ?_⟩
    · simp [h.findGroupById_eq_some_some.2 ⟨hgroup, rfl⟩, hfind, hs']
    · rwa [known_iff, hjoins.cids_eq, ← known_iff]
  | createGroup =>
    simp only [Served, hact] at hserved
    obtain ⟨hknown, hroom, hnonneg, hmax⟩ := hserved
    obtain ⟨i, c, hfind, hc⟩ := findClientById_isSome_iff.2 hknown
    have hg : (s.addGroup cmsg.name garbage).groups[s.groups.length]? =
        some (newGroup s.nextGroupId cmsg.name garbage) :=
      List.getElem?_concat_length
    obtain ⟨s', hs'⟩ := Option.isSome_iff_exists.1 (joinGroup_isSome
      (show i < (s.addGroup cmsg.name garbage).clients.length from
        (List.getElem?_eq_some_iff.1 hc).1) hg hnonneg hmax)
    obtain ⟨j, g, -, hjoins⟩ := joins_of_joinGroup hs'
    have hlt : s.groups.length < s'.groups.length := by
      simp [hjoins.groups_eq, addGroup]
    refine ⟨s', ⟨.createGroup, statusOk, some s'.groups[s.groups.length].gid⟩, ?_, ?_⟩
    · simp [createGroup, if_pos hroom, hfind, hs', List.getElem?_eq_getElem hlt]
    · rw [known_iff, hjoins.cids_eq]
      exact known_iff.1 hknown
  | leaveGroup =>
    simp only [Served, hact] at hserved
    exact ⟨s, _, rfl, hserved⟩
  | other n =>
    simp only [Served, hact] at hserved
    exact ⟨s, _, rfl, hserved⟩

theorem sendLoop_isSome_iff {g : Group} {msg : Message} {sent : ℕ → Bool} {n i : ℕ} :
    (s.sendLoop g msg sent n i).isSome ↔
      ∀ k < i + n, i ≤ k → (∀ j < k, i ≤ j → sent j = true) → s.CanSendTo g sent k := by
  induction n generalizing i with
  | zero => exact iff_of_true rfl fun k hk hik => by omega
  | succ n ih =>
    by_cases hcan : s.CanSendTo g sent i
    · obtain ⟨hmax, ⟨c, hc, hlt⟩, hname⟩ := id hcan
      by_cases hsent : sent i = true
      · have hloop : (s.sendLoop g msg sent (n + 1) i).isSome =
            (s.sendLoop g msg sent n (i + 1)).isSome := by
          cases hrest : s.sendLoop g msg sent n (i + 1) <;>
            simp [sendLoop, hmax, hc, hlt, hsent, hname hsent, hrest]
        rw [hloop, ih]
        refine ⟨fun h k hk hik hall => ?_, fun h k hk hik hall => ?_⟩
        · rcases hik.eq_or_lt with rfl | hik
          · exact hcan
          · exact h k (by omega) hik fun j hj hij => hall j hj (by omega)
        · refine h k (by omega) (by omega) fun j hj hij => ?_
          rcases hij.eq_or_lt with rfl | hij
          · exact hsent
          · exact hall j hj hij
      · -- the first failing `msgsnd` ends the loop
        refine iff_of_true (by simp [sendLoop, hmax, hc, hlt, hsent]) fun k hk hik hall => ?_
        rcases hik.eq_or_lt with rfl | hik
        · exact hcan
        · exact absurd (hall i hik le_rfl) hsent
    · refine iff_of_false (fun h => hcan ?_) fun h => hcan (h i (by omega) le_rfl fun j hj hij => by omega)
      rw [sendLoop] at h
      by_cases hmax : i < maxEntries
      · rw [if_pos hmax] at h
        obtain ⟨msgs, hmsgs⟩ := Option.isSome_iff_exists.1 h
        obtain ⟨member, hmember, hmsgs⟩ := Option.bind_eq_some_iff.1 hmsgs
        obtain ⟨clt, hclt, hmsgs⟩ := Option.bind_eq_some_iff.1 hmsgs
        refine ⟨hmax, ⟨member, hmember, (List.getElem?_eq_some_iff.1 hclt).1⟩, fun hsent => ?_⟩
        rw [if_pos hsent] at hmsgs
        obtain ⟨name, hname, -⟩ := Option.bind_eq_some_iff.1 hmsgs
        exact (List.getElem?_eq_some_iff.1 hname).1
      · rw [if_neg hmax] at h
        cases h

theorem served_groupMessage (h : s.WellFormed) {msg : Message} {sent : ℕ → Bool} :
    (s.handleGroupSendMsgs msg sent).isSome ↔ s.Served (.groupMessage msg sent) := by
  have hloop : ∀ g : Group, (s.sendLoop g msg sent g.numClients.toNat 0).isSome ↔
      s.CanSend g sent := fun g => by
    rw [sendLoop_isSome_iff]
    simp [CanSend]
  rw [handleGroupSendMsgs, h.findGroupById_eq]
  simp only [Served, HasGroup]
  by_cases hneg : msg.dst < 0
  · exact iff_of_false (by simp [hneg]) fun hgroup => by omega
  · by_cases hlt : msg.dst < s.groups.length
    · have hk : msg.dst.toNat < s.groups.length := by omega
      simp [hneg, hlt, sendGroupMessage, hloop, not_lt.1 hneg]
    · exact iff_of_false (by simp [hneg, hlt, sendGroupMessage]) fun hgroup => by omega

/-- A message is handled without a fault exactly when it is served. -/
theorem isSome_step_iff (h : s.WellFormed) (e : Event) : (step s e).isSome ↔ s.Served e := by
  cases e with
  | control cmsg queue garbage =>
    rw [step, Option.isSome_map, handleControlMsgs_isSome_iff]
    exact ⟨fun ⟨s', cres, hcontrol, hknown⟩ => served_of_control (h.controlled hcontrol) hknown,
      control_of_served h⟩
  | query query =>
    rw [step, Option.isSome_map]
    rcases findClientById_cases s query.src with ⟨hknown, hfind⟩ | ⟨i, c, hknown, hfind, hc, -⟩
    · exact iff_of_false (by simp [handleQueries, hfind]) hknown
    · exact iff_of_true (by simp [handleQueries, hfind, hc]) hknown
  | groupMessage msg sent =>
    rw [step, Option.isSome_map]
    exact served_groupMessage h
  | clientMessage msg =>
    rw [step, Option.isSome_map]
    rcases findClientById_cases s msg.dst with ⟨hknown, hfind⟩ | ⟨i, c, hknown, hfind, hc, -⟩
    · exact iff_of_false (by simp [handleClientSendMsgs, sendClientMessage, hfind]) hknown
    · exact iff_of_true (by simp [handleClientSendMsgs, sendClientMessage, hfind, hc]) hknown

/-- A message that names an unknown client or group and is handled changes nothing. -/
theorem step_of_namesUnknown {e : Event} (hserved : s.Served e) (hunknown : s.NamesUnknown e)
    (hs : (step s e).isSome) : step s e = some s := by
  cases e with
  | control cmsg queue garbage =>
    exfalso
    rcases hunknown with ⟨hact, hknown⟩ | ⟨hact, hgroup⟩
    · cases haction : cmsg.action with
      | registerClient => exact hact haction
      | joinGroup =>
        simp only [Served, haction] at hserved
        exact hknown hserved.1
      | createGroup =>
        simp only [Served, haction] at hserved
        exact hknown hserved.1
      | leaveGroup =>
        simp only [Served, haction] at hserved
        exact hknown hserved
      | other n =>
        simp only [Served, haction] at hserved
        exact hknown hserved
    · simp only [Served, hact] at hserved
      exact hgroup hserved.2.1
  | query query =>
    obtain ⟨s', hs'⟩ := Option.isSome_iff_exists.1 hs
    obtain ⟨-, -, rfl⟩ := Option.map_eq_some_iff.1 hs'
    exact hs'
  | groupMessage msg sent => exact absurd hserved.1 hunknown
  | clientMessage msg => exact absurd hserved hunknown

end Registry

open Registry

/-- The server gets through a sequence of messages, and those that name an unknown client or
group change nothing, exactly when every message is served. -/
theorem survives_iff (es : List Event) :
    ((run step init es).isSome ∧
        StepsMeet step (fun s e => s.NamesUnknown e → step s e = some s) init es) ↔
      StepsMeet step Served init es := by
  have hrun : (run step init es).isSome ↔ StepsMeet step Served init es :=
    isSome_run_iff_stepsMeet (fun _ _ _ h hs => wellFormed_step h hs)
      (fun _ e h => isSome_step_iff h e) wellFormed_init
  refine ⟨fun h => hrun.1 h.1, fun h => ⟨hrun.2 h, ?_⟩⟩
  exact StepsMeet.imp (fun _ _ _ hwf _ hs => wellFormed_step hwf hs)
    (fun _ e hwf hserved hunknown =>
      step_of_namesUnknown hserved hunknown ((isSome_step_iff hwf e).2 hserved)) wellFormed_init h

/-- A user registers. -/
def registration : Event :=
  .control ⟨['/', 'u'], ['u'], .registerClient, 1000, 0⟩ 5 ⟨0, fun _ => none⟩

/-- The user sends a message to a name that `get_cid` has not found. -/
def failedLookup : Event :=
  .clientMessage ⟨clientMessage, clientMessage, 1000, -1, -1, 0, 0, ['u'], ['h', 'i']⟩

theorem not_survives_failedLookup :
    ¬((run step init [registration, failedLookup]).isSome ∧
      StepsMeet step (fun s e => s.NamesUnknown e → step s e = some s) init
        [registration, failedLookup]) :=
  fun h => absurd h.1 (by decide)

end NetProg.MsgQueue
