import NetProg.MsgQueue.Faults

/-!
# The members of a group

The roster of a group is the set of clients that created or joined it, as the control
messages tell. `FansOut` says that each group has every client of its roster once among its
members, and that a message to the group becomes one copy for each of them.

`join_group` writes a client behind the members without a look at who is there, and
`new_group` leaves the number of members as `malloc` gave it. `fansOut_iff` says that the
groups are right as long as the fresh number is zero, nobody joins a group again, and the
arrays have room for what is added.
-/

namespace NetProg.MsgQueue

open Registry

/-- The roster of each group. -/
abbrev Roster :=
  List (Finset ℤ)

/-- The rosters after a message. -/
def Roster.after (r : Roster) : Event → Roster
  | .control cmsg _ _ =>
    match cmsg.action with
    | .createGroup => r ++ [{cmsg.src}]
    | .joinGroup => r.modify cmsg.gid.toNat (insert cmsg.src)
    | _ => r
  | _ => r

/-- One message is handled, and the rosters are kept. -/
def rosterStep (s : Registry × Roster) (e : Event) : Option (Registry × Roster) :=
  (step s.1 e).map fun s' => (s', s.2.after e)

/-- The copy of a message that the server queue gets for a member. -/
def copyFor (msg : Message) (cid : ℤ) : Message :=
  { msg with protocol := groupMessage, mtype := cid + 5000 }

/-- The first `num_clients` members of a group are the clients with these ids, in this order
and each once. -/
structure IsMembers (all : List ℤ) (g : Group) (cids : List ℤ) : Prop where
  numClients_eq : g.numClients = cids.length
  entry : ∀ (i : ℕ) (cid : ℤ), cids[i]? = some cid → ∃ c, g.clients i = some c ∧ all[c]? = some cid
  nodup : cids.Nodup

/-- The members of a group are its roster, each once, and get one copy of every message. -/
def FansOut (s : Registry × Roster) : Prop :=
  s.1.groups.length = s.2.length ∧
    ∀ (k : ℕ) (g : Group) (r : Finset ℤ), s.1.groups[k]? = some g → s.2[k]? = some r →
      ∃ cids, IsMembers s.1.cids g cids ∧ cids.toFinset = r ∧
        ∀ msg : Message, msg.dst = k →
          s.1.handleGroupSendMsgs msg (fun _ => true) = some (cids.map (copyFor msg))

/-- A control message from a registered client that names an existing group. -/
def Regular (s : Registry × Roster) : Event → Prop
  | .control cmsg _ _ =>
    match cmsg.action with
    | .registerClient => True
    | .createGroup => s.1.Known cmsg.src
    | .joinGroup => s.1.Known cmsg.src ∧ s.1.HasGroup cmsg.gid
    | .leaveGroup | .other _ => False
  | _ => False

/-- A registration that finds a queue and a free entry, a group with a fresh number of members
and a free entry, or a client that is new to the group it joins. -/
def Careful (s : Registry × Roster) : Event → Prop
  | .control cmsg queue garbage =>
    match cmsg.action with
    | .registerClient => s.1.Known cmsg.src ∨ 0 ≤ queue ∧ s.1.clients.length < maxEntries
    | .createGroup => s.1.groups.length < maxEntries ∧ garbage.numClients = 0
    | .joinGroup => ∀ r ∈ s.2[cmsg.gid.toNat]?, cmsg.src ∉ r
    | .leaveGroup | .other _ => True
  | _ => True

instance : ∀ (s : Registry × Roster) (e : Event), Decidable (Regular s e)
  | _, .control ⟨_, _, .registerClient, _, _⟩ _ _ => .isTrue trivial
  | s, .control ⟨_, _, .createGroup, src, _⟩ _ _ => inferInstanceAs (Decidable (s.1.Known src))
  | s, .control ⟨_, _, .joinGroup, src, gid⟩ _ _ =>
    inferInstanceAs (Decidable (s.1.Known src ∧ s.1.HasGroup gid))
  | _, .control ⟨_, _, .leaveGroup, _, _⟩ _ _ | _, .control ⟨_, _, .other _, _, _⟩ _ _ => .isFalse id
  | _, .query _ | _, .groupMessage _ _ | _, .clientMessage _ => .isFalse id

instance : ∀ (s : Registry × Roster) (e : Event), Decidable (Careful s e)
  | s, .control ⟨_, _, .registerClient, src, _⟩ queue _ =>
    inferInstanceAs (Decidable (s.1.Known src ∨ 0 ≤ queue ∧ s.1.clients.length < maxEntries))
  | s, .control ⟨_, _, .createGroup, _, _⟩ _ garbage =>
    inferInstanceAs (Decidable (s.1.groups.length < maxEntries ∧ garbage.numClients = 0))
  | s, .control ⟨_, _, .joinGroup, src, gid⟩ _ _ =>
    inferInstanceAs (Decidable (∀ r ∈ s.2[gid.toNat]?, src ∉ r))
  | _, .control ⟨_, _, .leaveGroup, _, _⟩ _ _ | _, .control ⟨_, _, .other _, _, _⟩ _ _ => .isTrue trivial
  | _, .query _ | _, .groupMessage _ _ | _, .clientMessage _ => .isTrue trivial

/-! ## Members -/

namespace IsMembers

variable {all cids : List ℤ} {g : Group}

theorem mem_all (h : IsMembers all g cids) {cid : ℤ} (hcid : cid ∈ cids) : cid ∈ all := by
  obtain ⟨i, hi⟩ := List.mem_iff_getElem?.1 hcid
  obtain ⟨c, -, hc⟩ := h.entry i cid hi
  exact List.mem_of_getElem? hc

/-- There are no more members than clients. -/
theorem length_le (h : IsMembers all g cids) : cids.length ≤ all.length :=
  (List.subperm_of_subset h.nodup fun _ => h.mem_all).length_le

theorem append (h : IsMembers all g cids) (new : List ℤ) : IsMembers (all ++ new) g cids where
  numClients_eq := h.numClients_eq
  entry i cid hi := by
    obtain ⟨c, hc, hall⟩ := h.entry i cid hi
    exact ⟨c, hc, by rw [List.getElem?_append_left (List.getElem?_eq_some_iff.1 hall).1, hall]⟩
  nodup := h.nodup

theorem newGroup {garbage : Garbage} (hgarbage : garbage.numClients = 0) (all : List ℤ) (gid : ℤ)
    (name : List Char) : IsMembers all (newGroup gid name garbage) [] where
  numClients_eq := hgarbage
  entry i cid hi := by cases hi
  nodup := List.nodup_nil

/-- A client that is no member yet is added. -/
theorem add (h : IsMembers all g cids) {clt : ℕ} {cid : ℤ} (hclt : all[clt]? = some cid)
    (hnew : cid ∉ cids) : IsMembers all (g.add clt) (cids ++ [cid]) where
  numClients_eq := by
    simp [h.numClients_eq]
  entry i cid' hi := by
    have hn : g.numClients.toNat = cids.length := by
      rw [h.numClients_eq, Int.toNat_natCast]
    rcases lt_trichotomy i cids.length with hlt | rfl | hgt
    · rw [List.getElem?_append_left hlt] at hi
      obtain ⟨c, hc, hall⟩ := h.entry i cid' hi
      exact ⟨c, by rw [Group.clients_add, hn, Function.update_of_ne hlt.ne, hc], hall⟩
    · rw [List.getElem?_concat_length] at hi
      obtain rfl := Option.some.inj hi
      exact ⟨clt, by rw [Group.clients_add, hn, Function.update_self], hclt⟩
    · rw [List.getElem?_eq_none (by simpa using hgt)] at hi
      cases hi
  nodup := by
    rw [List.nodup_append]
    exact ⟨h.nodup, List.nodup_singleton cid, fun a ha b hb hab => by simp_all⟩

/-- `send_group_message` makes a copy for each member. -/
theorem sendLoop_eq {s : Registry} (h : IsMembers s.cids g cids) (hmax : s.cids.length ≤ maxEntries)
    (msg : Message) (n i : ℕ) (hn : i + n = cids.length) :
    s.sendLoop g msg (fun _ => true) n i = some ((cids.drop i).map (copyFor msg)) := by
  induction n generalizing i with
  | zero =>
    rw [List.drop_eq_nil_of_le (by omega)]
    rfl
  | succ n ih =>
    have hi : i < cids.length := by omega
    have hle := h.length_le
    have hlen : s.cids.length = s.clients.length := List.length_map Client.cid
    obtain ⟨c, hc, hall⟩ := h.entry i _ (List.getElem?_eq_getElem hi)
    rw [Registry.cids, List.getElem?_map] at hall
    obtain ⟨clt, hclt, hcid⟩ := Option.map_eq_some_iff.1 hall
    rw [List.drop_eq_getElem_cons hi, List.map_cons, ← hcid, sendLoop, if_pos (by omega),
      ih (i + 1) (by omega)]
    simp [hc, hclt, show i < s.clients.length by omega, copyFor]

end IsMembers

/-! ## The rosters are kept -/

/-- What the server keeps about its groups. -/
structure Tracked (s : Registry × Roster) : Prop where
  wellFormed : s.1.WellFormed
  cids_nodup : s.1.cids.Nodup
  length_cids_le : s.1.cids.length ≤ maxEntries
  length_eq : s.1.groups.length = s.2.length
  members : ∀ (k : ℕ) (g : Group) (r : Finset ℤ), s.1.groups[k]? = some g → s.2[k]? = some r →
    ∃ cids, IsMembers s.1.cids g cids ∧ cids.toFinset = r

theorem tracked_init : Tracked (init, []) where
  wellFormed := wellFormed_init
  cids_nodup := List.nodup_nil
  length_cids_le := Nat.zero_le _
  length_eq := rfl
  members k g r hg := by cases hg

theorem Tracked.fansOut {s : Registry × Roster} (h : Tracked s) : FansOut s := by
  refine ⟨h.length_eq, fun k g r hg hr => ?_⟩
  obtain ⟨cids, hcids, hset⟩ := h.members k g r hg hr
  refine ⟨cids, hcids, hset, fun msg hdst => ?_⟩
  have hlt := (List.getElem?_eq_some_iff.1 hg).1
  have hfind : s.1.findGroupById msg.dst = some (some k) :=
    h.wellFormed.findGroupById_eq_some_some.2 ⟨⟨by omega, by omega⟩, by omega⟩
  have hloop := hcids.sendLoop_eq h.length_cids_le msg g.numClients.toNat 0 (by
    rw [hcids.numClients_eq]
    omega)
  simpa [handleGroupSendMsgs, hfind, sendGroupMessage, hg] using hloop

/-- The ids of the clients, the groups and the rosters after a client has joined. -/
theorem Tracked.joins {s : Registry × Roster} (h : Tracked s) {s' : Registry} {k clt : ℕ}
    {g : Group} {cid : ℤ} (hj : Joins s.1 s' k clt g) (hclt : s.1.cids[clt]? = some cid)
    (hnew : ∀ r ∈ s.2[k]?, cid ∉ r) : Tracked (s', s.2.modify k (insert cid)) where
  wellFormed := h.wellFormed.joins hj
  cids_nodup := hj.cids_eq ▸ h.cids_nodup
  length_cids_le := hj.cids_eq ▸ h.length_cids_le
  length_eq := by
    simp [hj.groups_eq, h.length_eq]
  members k' g' r' hg' hr' := by
    simp only [hj.groups_eq, hj.cids_eq] at hg' ⊢
    by_cases hk : k = k'
    · subst hk
      have hlt := (List.getElem?_eq_some_iff.1 hj.group).1
      rw [List.getElem?_set_self hlt] at hg'
      obtain rfl := Option.some.inj hg'
      rw [List.getElem?_modify_eq] at hr'
      obtain ⟨r, hr, rfl⟩ := Option.map_eq_some_iff.1 hr'
      obtain ⟨cids, hcids, rfl⟩ := h.members k g r hj.group hr
      have hcid : cid ∉ cids := fun hmem => hnew _ hr (List.mem_toFinset.2 hmem)
      exact ⟨cids ++ [cid], hcids.add hclt hcid, by simp⟩
    · rw [List.getElem?_set_ne hk] at hg'
      simp only [List.getElem?_modify_ne _ _ hk] at hr'
      exact h.members k' g' r' hg' hr'

/-- A new group with no member. -/
theorem Tracked.addGroup {s : Registry × Roster} (h : Tracked s) (name : List Char)
    {garbage : Garbage} (hgarbage : garbage.numClients = 0) :
    Tracked (s.1.addGroup name garbage, s.2 ++ [∅]) where
  wellFormed := wellFormed_addGroup h.wellFormed name garbage
  cids_nodup := h.cids_nodup
  length_cids_le := h.length_cids_le
  length_eq := by
    simp [Registry.addGroup, h.length_eq]
  members k g r hg hr := by
    simp only [Registry.addGroup] at hg
    rcases lt_trichotomy k s.1.groups.length with hlt | heq | hgt
    · rw [List.getElem?_append_left hlt] at hg
      rw [List.getElem?_append_left (h.length_eq ▸ hlt)] at hr
      exact h.members k g r hg hr
    · rw [heq, List.getElem?_concat_length] at hg
      rw [heq, h.length_eq, List.getElem?_concat_length] at hr
      obtain rfl := Option.some.inj hg
      obtain rfl := Option.some.inj hr
      exact ⟨[], .newGroup hgarbage _ _ _, rfl⟩
    · rw [List.getElem?_eq_none (by simpa using hgt)] at hg
      cases hg

/-- A new client. -/
theorem Tracked.register {s : Registry × Roster} (h : Tracked s) {c : Client}
    (hnew : ¬s.1.Known c.cid) (hroom : s.1.clients.length < maxEntries) :
    Tracked ({ s.1 with clients := s.1.clients ++ [c] }, s.2) where
  wellFormed := ⟨h.wellFormed.gid_eq, h.wellFormed.nextGroupId_eq⟩
  cids_nodup := by
    have := h.cids_nodup
    rw [known_iff] at hnew
    simp only [cids, List.map_append, List.map_singleton] at this hnew ⊢
    simpa using this.concat hnew
  length_cids_le := by
    simpa [cids] using hroom
  length_eq := h.length_eq
  members k g r hg hr := by
    obtain ⟨cids, hcids, hset⟩ := h.members k g r hg hr
    refine ⟨cids, ?_, hset⟩
    simpa [Registry.cids] using hcids.append [c.cid]

theorem cids_of_findClientById {s : Registry} {cid : ℤ} {i : ℕ}
    (h : s.findClientById cid = some i) : s.cids[i]? = some cid := by
  obtain ⟨c, hc, hcid⟩ := findClientById_eq_some h
  rw [cids, List.getElem?_map, hc, Option.map_some, hcid]

/-- A client that joins a group for the first time finds room among the members. -/
theorem Tracked.room {s : Registry × Roster} (h : Tracked s) {k : ℕ} {g : Group} {cid : ℤ}
    (hg : s.1.groups[k]? = some g) (hknown : s.1.Known cid) (hnew : ∀ r ∈ s.2[k]?, cid ∉ r) :
    0 ≤ g.numClients ∧ g.numClients < maxEntries := by
  have hlt := (List.getElem?_eq_some_iff.1 hg).1
  have hr := List.getElem?_eq_getElem (show k < s.2.length from h.length_eq ▸ hlt)
  obtain ⟨cids, hcids, hset⟩ := h.members k g _ hg hr
  obtain ⟨i, hi⟩ := List.mem_iff_getElem?.1 (known_iff.1 hknown)
  have hcid : cid ∉ cids := fun hmem => hnew _ hr (hset ▸ List.mem_toFinset.2 hmem)
  have hle := (hcids.add hi hcid).length_le
  have hmax := h.length_cids_le
  rw [List.length_append, List.length_singleton] at hle
  have := hcids.numClients_eq
  omega

/-- A careful message is served. -/
theorem Tracked.served {s : Registry × Roster} (h : Tracked s) {e : Event} (hreg : Regular s e)
    (hcare : Careful s e) : s.1.Served e := by
  cases e with
  | query | groupMessage | clientMessage => exact hreg.elim
  | control cmsg queue garbage =>
    cases hact : cmsg.action with
    | registerClient =>
      simp only [Careful, hact] at hcare
      simpa only [Served, hact] using hcare
    | joinGroup =>
      simp only [Regular, Careful, hact] at hreg hcare
      simp only [Served, hact]
      exact ⟨hreg.1, hreg.2, fun g hg => h.room hg hreg.1 hcare⟩
    | createGroup =>
      simp only [Regular, Careful, hact] at hreg hcare
      simp only [Served, hact, hcare.2]
      exact ⟨hreg, hcare.1, le_rfl, by decide⟩
    | leaveGroup =>
      simp only [Regular, hact] at hreg
    | other n =>
      simp only [Regular, hact] at hreg

/-- A careful message is handled, and the rosters are kept. -/
theorem Tracked.good {s : Registry × Roster} (h : Tracked s) {e : Event} (hreg : Regular s e)
    (hcare : Careful s e) : ∃ s', rosterStep s e = some s' ∧ Tracked s' := by
  obtain ⟨s', hs'⟩ := Option.isSome_iff_exists.1
    ((isSome_step_iff h.wellFormed e).2 (h.served hreg hcare))
  refine ⟨(s', s.2.after e), by rw [rosterStep, hs', Option.map_some], ?_⟩
  cases e with
  | query | groupMessage | clientMessage => exact hreg.elim
  | control cmsg queue garbage =>
    obtain ⟨⟨s₁, q, cres⟩, hcontrol, rfl⟩ := Option.map_eq_some_iff.1 hs'
    have hc := h.wellFormed.controlled (handleControlMsgs_eq_some_iff.1 hcontrol).1
    cases hc with
    | known hact =>
      simpa only [Roster.after, hact] using h
    | failed hact hnot hqueue =>
      simpa only [Roster.after, hact] using h
    | registered hact hnot hqueue hroom c hcid =>
      simp only [Roster.after, hact]
      exact h.register (hcid ▸ hnot) hroom
    | joined hact hclt hgroup hjoins =>
      simp only [Careful, hact] at hcare
      simp only [Roster.after, hact]
      exact h.joins hjoins (cids_of_findClientById hclt) hcare
    | created hact hclt hroom hjoins =>
      simp only [Careful, hact] at hcare
      have hroster : (s.2 ++ [∅]).modify s.1.groups.length (insert cmsg.src) =
          s.2 ++ [{cmsg.src}] := by
        rw [h.length_eq]
        exact List.modifyTailIdx_add (List.modifyHead (insert cmsg.src)) 0 s.2 [∅]
      simp only [Roster.after, hact, ← hroster]
      refine (h.addGroup cmsg.name hcare.2).joins hjoins (cids_of_findClientById hclt) fun r hr => ?_
      rw [h.length_eq, List.getElem?_concat_length] at hr
      cases hr
      exact Finset.notMem_empty _
    | refused hact =>
      rcases hact with hact | ⟨n, hact⟩ <;> simp only [Regular, hact] at hreg

theorem FansOut.card_eq {s : Registry × Roster} (h : FansOut s) {k : ℕ} {g : Group} {r : Finset ℤ}
    (hg : s.1.groups[k]? = some g) (hr : s.2[k]? = some r) : g.numClients = r.card := by
  obtain ⟨cids, hcids, rfl, -⟩ := h.2 k g r hg hr
  rw [hcids.numClients_eq, List.toFinset_card_of_nodup hcids.nodup]

/-- A message that is not careful is not handled, or breaks a group. -/
theorem Tracked.bad {s s' : Registry × Roster} (h : Tracked s) {e : Event} (hreg : Regular s e)
    (hcare : ¬Careful s e) (hs : rosterStep s e = some s') : ¬FansOut s' := by
  obtain ⟨s₁, hs₁, rfl⟩ := Option.map_eq_some_iff.1 hs
  have hserved : s.1.Served e := (isSome_step_iff h.wellFormed e).1 (by rw [hs₁]; rfl)
  cases e with
  | query | groupMessage | clientMessage => exact hreg.elim
  | control cmsg queue garbage =>
    obtain ⟨⟨s₁, q, cres⟩, hcontrol, rfl⟩ := Option.map_eq_some_iff.1 hs₁
    have hc := h.wellFormed.controlled (handleControlMsgs_eq_some_iff.1 hcontrol).1
    cases hc with
    | known hact | failed hact | registered hact =>
      simp only [Careful, Served, hact] at hcare hserved
      exact absurd hserved hcare
    | @joined hact clt hclt hgroup s' g hjoins =>
      simp only [Careful, hact, not_forall, not_not] at hcare
      obtain ⟨r, hr, hmem⟩ := hcare
      have hbefore := h.fansOut.card_eq hjoins.group hr
      intro hfans
      have hafter := hfans.card_eq (k := cmsg.gid.toNat) (r := r) hjoins.group_added
        (by
          simp only [Roster.after, hact, List.getElem?_modify_eq]
          rw [hr, Option.map_eq_map, Option.map_some, Finset.insert_eq_of_mem hmem])
      rw [Group.numClients_add] at hafter
      omega
    | @created hact clt hclt hroom s' hjoins =>
      simp only [Careful, hact] at hcare
      have hne : garbage.numClients ≠ 0 := fun h0 => hcare ⟨hroom, h0⟩
      intro hfans
      have hafter := hfans.card_eq (k := s.1.groups.length) (r := {cmsg.src}) hjoins.group_added
        (by
          simp only [Roster.after, hact]
          rw [h.length_eq, List.getElem?_concat_length])
      rw [Group.numClients_add, Finset.card_singleton] at hafter
      simp only [newGroup] at hafter
      omega
    | refused hact =>
      rcases hact with hact | ⟨n, hact⟩ <;> simp only [Regular, hact] at hreg

/-- The groups fan out to their rosters throughout a run exactly when every message is
careful. -/
theorem fansOut_iff (es : List Event) (hreg : StepsMeet rosterStep Regular (init, []) es) :
    ((run rosterStep (init, []) es).isSome ∧ Along rosterStep FansOut (init, []) es) ↔
      StepsMeet rosterStep Careful (init, []) es :=
  isSome_run_and_along_iff (fun _ => Tracked.fansOut) (fun _ _ h => h.good)
    (fun _ _ _ h => h.bad) tracked_init hreg

/-- A control message of a user, with the number of members that `malloc` leaves in a group. -/
def controlBy (src : ℤ) (action : Action) (numClients : ℤ) : Event :=
  .control ⟨['/', 'u'], ['u'], action, src, 0⟩ 5 ⟨numClients, fun _ => none⟩

/-- Two users register, and the second joins the group of the first. -/
def twoMembers : List Event :=
  [controlBy 1000 .registerClient 0, controlBy 1000 .createGroup 0,
    controlBy 1001 .registerClient 0, controlBy 1001 .joinGroup 0]

theorem fansOut_twoMembers :
    (run rosterStep (init, []) twoMembers).isSome ∧
      Along rosterStep FansOut (init, []) twoMembers :=
  (fansOut_iff twoMembers (by decide)).2 (by decide)

/-- The creator of a group joins it. -/
def joinsAgain : List Event :=
  [controlBy 1000 .registerClient 0, controlBy 1000 .createGroup 0, controlBy 1000 .joinGroup 0]

theorem not_fansOut_joinsAgain :
    StepsMeet rosterStep Regular (init, []) joinsAgain ∧
      ¬((run rosterStep (init, []) joinsAgain).isSome ∧
        Along rosterStep FansOut (init, []) joinsAgain) := by
  refine ⟨by decide, fun ⟨hrun, hal⟩ => ?_⟩
  obtain ⟨s, hs⟩ := Option.isSome_iff_exists.1 hrun
  have hend : (run rosterStep (init, []) joinsAgain).map (fun s =>
      (s.1.groups[0]?.map Group.numClients, s.2[0]?)) = some (some 2, some {1000}) := by
    decide
  rw [hs, Option.map_some, Option.some.injEq, Prod.mk.injEq] at hend
  obtain ⟨g, hg, hnum⟩ := Option.map_eq_some_iff.1 hend.1
  have hcard := (hal.last hs).card_eq hg hend.2
  rw [hnum] at hcard
  revert hcard
  decide

end NetProg.MsgQueue
