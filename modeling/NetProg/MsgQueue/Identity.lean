import NetProg.MsgQueue.Membership

/-!
# Ids of clients and groups

`find_group_by_id` looks at `groups[id]` first and searches the array only if another group
is there. `create_group` takes the id from `next_group_id` and the place from `total_groups`,
`register_client` takes the id from the message. `loggedStep` is the server with a ghost : for
each `CREATE_GROUP` the gid in the answer and the place of the group. `HasIdentity` says that
a lookup of an id that is not negative finds what a search of the whole array finds, and what
the answer with this gid was about. Entries are only added (`Grows`), so that an id that was
found once leads to the same entry from then on (`Keeps`).
-/

namespace NetProg.MsgQueue

/-! ## The groups that were answered -/

/-- An answer to `CREATE_GROUP`. -/
structure Creation where
  /-- The gid in the answer. -/
  gid : Option ℤ
  /-- Where `create_group` puts the group. -/
  group : ℕ
deriving DecidableEq, Repr

/-- One message is handled, and the answer to a `CREATE_GROUP` is noted. -/
def loggedStep (s : Registry × List Creation) : Event → Option (Registry × List Creation)
  | .control cmsg queue garbage =>
    (s.1.handleControlMsgs cmsg queue garbage).map fun (s', _, cres) =>
      (s', if cmsg.action = .createGroup then s.2 ++ [⟨cres.gid, s.1.groups.length⟩] else s.2)
  | e => (step s.1 e).map fun s' => (s', s.2)

theorem step_of_loggedStep {s s' : Registry × List Creation} {e : Event}
    (h : loggedStep s e = some s') : step s.1 e = some s'.1 := by
  cases e with
  | control cmsg queue garbage =>
    obtain ⟨⟨s₁, q, cres⟩, hcontrol, rfl⟩ := Option.map_eq_some_iff.1 h
    simp [step, hcontrol]
  | query | groupMessage | clientMessage =>
    obtain ⟨s₁, hs, rfl⟩ := Option.map_eq_some_iff.1 h
    exact hs

namespace Registry

/-! ## Entries are only added -/

/-- `s'` has the clients and groups of `s`, and perhaps more behind them. -/
structure Grows (s s' : Registry) : Prop where
  cids : s.cids <+: s'.cids
  groups : s.groups.length ≤ s'.groups.length

theorem Grows.refl (s : Registry) : Grows s s :=
  ⟨List.prefix_rfl, le_rfl⟩

theorem Grows.trans {s t u : Registry} (h : Grows s t) (h' : Grows t u) : Grows s u :=
  ⟨h.cids.trans h'.cids, h.groups.trans h'.groups⟩

variable {s s' : Registry}

theorem Controlled.grows {cmsg : ControlMessage} {queue : ℤ} {garbage : Garbage}
    {cres : ControlResponse} (hc : Controlled s cmsg queue garbage s' cres) : Grows s s' := by
  cases hc with
  | known | failed | refused => exact Grows.refl s
  | registered hact hknown hqueue hroom c hcid =>
    exact ⟨by simp [Registry.cids], le_rfl⟩
  | joined hact hclt hgroup hjoins =>
    exact ⟨by rw [hjoins.cids_eq], by rw [hjoins.groups_eq, List.length_set]⟩
  | created hact hclt hroom hjoins =>
    have hcids : (s.addGroup cmsg.name garbage).cids = s.cids := rfl
    refine ⟨by rw [hjoins.cids_eq, hcids], ?_⟩
    rw [hjoins.groups_eq, List.length_set]
    simp [addGroup]

/-- The ids of the clients stay different. -/
theorem Controlled.cids_nodup {cmsg : ControlMessage} {queue : ℤ} {garbage : Garbage}
    {cres : ControlResponse} (hc : Controlled s cmsg queue garbage s' cres)
    (h : s.cids.Nodup) : s'.cids.Nodup := by
  cases hc with
  | known | failed | refused => exact h
  | registered hact hknown hqueue hroom c hcid =>
    rw [known_iff, ← hcid] at hknown
    simpa [Registry.cids] using h.concat hknown
  | joined hact hclt hgroup hjoins => exact hjoins.cids_eq ▸ h
  | created hact hclt hroom hjoins => exact hjoins.cids_eq ▸ h

/-- Groups come from `CREATE_GROUP` alone, one for each. -/
theorem Controlled.length_groups {cmsg : ControlMessage} {queue : ℤ} {garbage : Garbage}
    {cres : ControlResponse} (hc : Controlled s cmsg queue garbage s' cres) :
    cmsg.action = .createGroup ∧ s'.groups.length = s.groups.length + 1 ∧
        cres.gid = some s.groups.length ∨
      cmsg.action ≠ .createGroup ∧ s'.groups.length = s.groups.length := by
  cases hc with
  | known hact | failed hact | registered hact =>
    exact Or.inr ⟨by simp [hact], rfl⟩
  | refused hact =>
    refine Or.inr ⟨?_, rfl⟩
    rcases hact with hact | ⟨n, hact⟩ <;> simp [hact]
  | joined hact hclt hgroup hjoins =>
    exact Or.inr ⟨by simp [hact], by rw [hjoins.groups_eq, List.length_set]⟩
  | created hact hclt hroom hjoins =>
    refine Or.inl ⟨hact, ?_, rfl⟩
    rw [hjoins.groups_eq, List.length_set]
    simp [addGroup]

/-! ## Lookups -/

/-- The loop of `find_group_by_id` alone. -/
def scanGroups (s : Registry) (id : ℤ) : Option ℕ :=
  s.groups.findIdx? fun g => g.gid = id

theorem WellFormed.scanGroups_eq (h : s.WellFormed) {id : ℤ} (hid : 0 ≤ id) :
    s.scanGroups id = if id < s.groups.length then some id.toNat else none := by
  unfold scanGroups
  split_ifs with hlt
  · have hk : id.toNat < s.groups.length := by omega
    refine List.findIdx?_eq_some_iff_getElem.2 ⟨hk, ?_, fun j hj => ?_⟩
    · have hgid := h.gid_eq id.toNat _ (List.getElem?_eq_getElem hk)
      rw [decide_eq_true_iff]
      omega
    · have hgid := h.gid_eq j _ (List.getElem?_eq_getElem (hj.trans hk))
      rw [decide_eq_true_iff]
      omega
  · exact h.search_eq_none (by omega)

/-- The fast path finds what the loop finds. -/
theorem WellFormed.findGroupById_eq_scan (h : s.WellFormed) {id : ℤ} (hid : 0 ≤ id) :
    s.findGroupById id = some (s.scanGroups id) := by
  rw [h.findGroupById_eq, h.scanGroups_eq hid, if_neg (by omega)]

theorem findClientById_eq_findIdx? (s : Registry) (id : ℤ) :
    s.findClientById id = s.cids.findIdx? fun cid => cid = id := by
  rw [findClientById, cids, List.findIdx?_map]
  rfl

/-- Every id that is found in `s` leads to the same entry in `s'`. -/
structure Keeps (s s' : Registry) : Prop where
  client : ∀ id i, s.findClientById id = some i → s'.findClientById id = some i
  group : ∀ id k, s.findGroupById id = some (some k) → s'.findGroupById id = some (some k)

theorem Grows.keeps (h : Grows s s') (hs : s.WellFormed) (hs' : s'.WellFormed) : Keeps s s' where
  client id i hi := by
    rw [findClientById_eq_findIdx?] at hi ⊢
    obtain ⟨new, hnew⟩ := h.cids
    rw [← hnew, List.findIdx?_append, hi]
    rfl
  group id k hk := by
    obtain ⟨⟨hnonneg, hlt⟩, heq⟩ := hs.findGroupById_eq_some_some.1 hk
    have hle := h.groups
    exact hs'.findGroupById_eq_some_some.2 ⟨⟨hnonneg, by omega⟩, heq⟩

end Registry

/-! ## Identity in every run -/

open Registry

/-- Ids and places of clients and groups agree, and so do the lookups and the answers. -/
structure HasIdentity (s : Registry × List Creation) : Prop where
  gid_eq : ∀ (i : ℕ) (g : Group), s.1.groups[i]? = some g → g.gid = i
  nextGroupId_eq : s.1.nextGroupId = s.1.groups.length
  cids_nodup : (s.1.clients.map Client.cid).Nodup
  lookup : ∀ id, 0 ≤ id → s.1.findGroupById id = some (s.1.scanGroups id)
  answered : ∀ id k, 0 ≤ id →
    (s.1.findGroupById id = some (some k) ↔ ⟨some id, k⟩ ∈ s.2)

/-- What every message keeps. -/
structure Identified (s : Registry × List Creation) : Prop where
  wellFormed : s.1.WellFormed
  cids_nodup : s.1.cids.Nodup
  creations : s.2 = (List.range s.1.groups.length).map fun k => ⟨some k, k⟩

theorem identified_init : Identified (init, []) :=
  ⟨wellFormed_init, List.nodup_nil, rfl⟩

theorem Identified.hasIdentity {s : Registry × List Creation} (h : Identified s) :
    HasIdentity s where
  gid_eq := h.wellFormed.gid_eq
  nextGroupId_eq := h.wellFormed.nextGroupId_eq
  cids_nodup := h.cids_nodup
  lookup id hid := h.wellFormed.findGroupById_eq_scan hid
  answered id k hid := by
    rw [h.wellFormed.findGroupById_eq_some_some, h.creations, List.mem_map]
    constructor
    · rintro ⟨⟨-, hlt⟩, rfl⟩
      exact ⟨id.toNat, List.mem_range.2 (by omega), by simp [Int.toNat_of_nonneg hid]⟩
    · rintro ⟨j, hj, heq⟩
      obtain ⟨hgid, rfl⟩ := Creation.mk.inj heq
      obtain rfl : (j : ℤ) = id := Option.some.inj hgid
      have := List.mem_range.1 hj
      exact ⟨⟨hid, by omega⟩, Int.toNat_natCast j⟩

theorem Identified.step {s s' : Registry × List Creation} {e : Event} (h : Identified s)
    (hs : loggedStep s e = some s') : Identified s' ∧ Grows s.1 s'.1 := by
  cases e with
  | control cmsg queue garbage =>
    obtain ⟨⟨s₁, q, cres⟩, hcontrol, rfl⟩ := Option.map_eq_some_iff.1 hs
    have hc := h.wellFormed.controlled (handleControlMsgs_eq_some_iff.1 hcontrol).1
    refine ⟨⟨hc.wellFormed h.wellFormed, hc.cids_nodup h.cids_nodup, ?_⟩, hc.grows⟩
    rcases hc.length_groups with ⟨hact, hlen, hgid⟩ | ⟨hact, hlen⟩
    · simp only [if_pos hact, hlen, hgid, List.range_succ, List.map_append, h.creations]
      rfl
    · simp only [if_neg hact, hlen, h.creations]
  | query query =>
    obtain ⟨s₁, hstep, rfl⟩ := Option.map_eq_some_iff.1 hs
    obtain ⟨-, -, rfl⟩ := Option.map_eq_some_iff.1 hstep
    exact ⟨h, Grows.refl _⟩
  | groupMessage msg sent =>
    obtain ⟨s₁, hstep, rfl⟩ := Option.map_eq_some_iff.1 hs
    obtain ⟨-, -, rfl⟩ := Option.map_eq_some_iff.1 hstep
    exact ⟨h, Grows.refl _⟩
  | clientMessage msg =>
    obtain ⟨s₁, hstep, rfl⟩ := Option.map_eq_some_iff.1 hs
    obtain ⟨-, -, rfl⟩ := Option.map_eq_some_iff.1 hstep
    exact ⟨h, Grows.refl _⟩

theorem Identified.run {es : List Event} {s s' : Registry × List Creation} (h : Identified s)
    (hr : run loggedStep s es = some s') : Identified s' ∧ Grows s.1 s'.1 :=
  run_invariant_of_step (I := fun t => Identified t ∧ Grows s.1 t.1)
    (fun _ _ _ ht hs => ⟨(ht.1.step hs).1, ht.2.trans (ht.1.step hs).2⟩)
    ⟨h, Grows.refl _⟩ hr

/-- In every state that the server reaches the ids are right, and what they lead to stays. -/
theorem hasIdentity_run {es es' : List Event} {s s' : Registry × List Creation}
    (hr : run loggedStep (init, []) es = some s) (hr' : run loggedStep s es' = some s') :
    HasIdentity s ∧ Keeps s.1 s'.1 := by
  obtain ⟨h, -⟩ := identified_init.run hr
  obtain ⟨h', hgrows⟩ := h.run hr'
  exact ⟨h.hasIdentity, hgrows.keeps h.wellFormed h'.wellFormed⟩

/-- Two users and a group, and then a second group. -/
theorem hasIdentity_twoGroups : ∃ s s', run loggedStep (init, []) twoMembers = some s ∧
    run loggedStep s [controlBy 1001 .createGroup 0] = some s' ∧
      s'.1.groups.length = 2 ∧ HasIdentity s ∧ Keeps s.1 s'.1 := by
  obtain ⟨s, hs⟩ := Option.isSome_iff_exists.1
    (show (run loggedStep (init, []) twoMembers).isSome by decide)
  have hall : (run loggedStep (init, []) (twoMembers ++ [controlBy 1001 .createGroup 0])).map
      (fun s => s.1.groups.length) = some 2 := by
    decide
  rw [run_append, hs, Option.bind_some] at hall
  obtain ⟨s', hs', hlen⟩ := Option.map_eq_some_iff.1 hall
  exact ⟨s, s', hs, hs', hlen, hasIdentity_run hs hs'⟩

end NetProg.MsgQueue
