import NetProg.GroupChat.Refinement

/-!
# Names and endpoints of the joined groups

A new group is refused when its name, or its address text and port number, is taken. What
the sockets use is another pair : `inet_addr` of the text and the low 16 bits of the port.
`tryStep` is the client with socket calls that can fail. `Chained` is what every command
keeps about the nodes that are reachable from `head`, also after the last of several groups
was left : from then on a new group hangs on the freed node, or the client faults, and the
groups that are reachable only become fewer.

Names never repeat. The endpoints stay different as long as no group is added with an
endpoint that a reachable group has (`distinct_of_newEndpoint`).
-/

namespace NetProg.GroupChat

/-- The groups reachable from `head`. -/
def GroupList.reachable (mc : GroupList) : Option (List Group) :=
  mc.heap.toList mc.heap.bound mc.head

/-- The pair that a group with this text and port is bound and sent to. -/
def endpoint (inetAddr : String → BitVec 32) (j : Joined) : SockAddr :=
  ⟨inetAddr j.ip, BitVec.ofInt 16 j.port⟩

/-! ## Socket calls that fail -/

/-- A command, or a new group for which a socket call fails. -/
inductive Attempt where
  | command (cmd : Command)
  | socketFails (name ip : String) (port : ℤ) (new : Fresh)
deriving DecidableEq, Repr

/-- One attempt. A group whose socket calls fail is not linked. -/
def tryStep (inetAddr : String → BitVec 32) : App → Attempt → Option App
  | s, .command cmd => step inetAddr s cmd
  | .running mc js, .socketFails name ip port new =>
    if (mc.heap.cells new.block).isNone then
      match mc.initMulticastGroup inetAddr name ip port new with
      | none => some .fault
      | some (.error _) => some (.running mc js)
      | some (.ok mc) => some (.running mc js)
    else none
  | .exited, .socketFails .. | .fault, .socketFails .. => none

/-- The group that a command adds when nothing about it is taken. -/
def Command.adds : Command → Option Joined
  | .createGroup name ip port _ => some ⟨name, ip, port⟩
  | .joinGroup name reply _ =>
    (reply.filter fun r => r.grpName == name).map fun r => ⟨r.grpName, r.ip, r.port⟩
  | _ => none

/-- No two reachable groups have one name. Of a client that ended nothing is said. -/
def DistinctNames : App → Prop
  | .running mc _ => ∃ gs, mc.reachable = some gs ∧ (gs.map Group.name).Nodup
  | .exited | .fault => True

/-- No two reachable groups have one name, or one endpoint. -/
def Distinct : App → Prop
  | .running mc _ => ∃ gs, mc.reachable = some gs ∧ (gs.map Group.name).Nodup ∧
      (gs.map Group.sendAddr).Nodup
  | .exited | .fault => True

/-- A group that passes the two checks has an endpoint that no reachable group has. -/
def NewEndpoint (inetAddr : String → BitVec 32) : App → Attempt → Prop
  | .running mc _, .command cmd => ∀ j ∈ cmd.adds, ∀ gs ∈ mc.reachable,
      (∀ g ∈ gs, g.name ≠ j.name ∧ ¬(g.ip = j.ip ∧ g.port = j.port)) →
        ∀ g ∈ gs, g.sendAddr ≠ endpoint inetAddr j
  | _, _ => True

instance (inetAddr : String → BitVec 32) : ∀ s a, Decidable (NewEndpoint inetAddr s a)
  | .running mc _, .command cmd => inferInstanceAs (Decidable (∀ j ∈ cmd.adds, ∀ gs ∈ mc.reachable,
      (∀ g ∈ gs, g.name ≠ j.name ∧ ¬(g.ip = j.ip ∧ g.port = j.port)) →
        ∀ g ∈ gs, g.sendAddr ≠ endpoint inetAddr j))
  | .running _ _, .socketFails .. | .exited, _ | .fault, _ => .isTrue trivial

/-- `Keeps`, for an attempt. -/
def KeepsTail : App → Attempt → Prop
  | s, .command cmd => Keeps s cmd
  | _, .socketFails .. => True

/-! ## The nodes reachable from `head` -/

/-- The reachable nodes form a list. `tail` is the last of them, or leads to another node. -/
structure Chained (mc : GroupList) (l : List (ℕ × Group)) : Prop where
  list : DList mc.heap mc.head l
  names : (l.map fun x => x.2.name).Nodup
  length_le : l.length ≤ mc.count
  tail : mc.count = l.length ∧ (l ≠ [] → mc.tail = lastPtr none l) ∨
    mc.count ≠ 0 ∧ ∃ a, mc.tail = some a ∧ a ∉ l.map Prod.fst

theorem chained_empty : Chained GroupList.empty [] :=
  ⟨DList.nil _, List.nodup_nil, le_rfl, Or.inl ⟨rfl, fun h => absurd rfl h⟩⟩

/-- The reachable nodes before and after a group is added, or not. -/
def Extends (inetAddr : String → BitVec 32) (j : Joined) (l l' : List (ℕ × Group)) : Prop :=
  l' = l ∨ (∀ x ∈ l, x.2.name ≠ j.name ∧ ¬(x.2.ip = j.ip ∧ x.2.port = j.port)) ∧
    ∃ new : Fresh, l' = l ++ [(new.block, GroupList.newGroup inetAddr j.name j.ip j.port new)]

theorem nodup_map_concat {α β : Type*} {f : α → β} {l : List α} {y : α} (h : (l.map f).Nodup)
    (hnew : ∀ x ∈ l, f x ≠ f y) : ((l ++ [y]).map f).Nodup := by
  have hnot : f y ∉ l.map f := fun hm => by
    obtain ⟨x, hx, heq⟩ := List.mem_map.1 hm
    exact hnew x hx heq
  simpa using h.concat hnot

section

variable {inetAddr : String → BitVec 32} {mc mc' : GroupList} {l : List (ℕ × Group)}

theorem Chained.findGroupByName_eq (h : Chained mc l) (name : String) : mc.findGroupByName name =
    some ((l.find? fun x => x.2.name == name).map Prod.fst) :=
  h.list.search_eq fun g : Group => g.name == name

/-- A block that is not linked changes nothing. -/
theorem Chained.write (h : Chained mc l) {a : ℕ} (ha : mc.heap.cells a = none) (n : Node Group) :
    Chained { mc with heap := mc.heap.write a n } l :=
  ⟨h.list.write (h.list.notMem_of_cells_eq_none ha) n, h.names, h.length_le, h.tail⟩

/-- A new group goes behind the last one, or out of reach. -/
theorem Chained.insert (h : Chained mc l) {a : ℕ} {g : Group}
    (ha : mc.heap.cells a = some ⟨g, none, none⟩) (hal : a ∉ l.map Prod.fst)
    (hname : ∀ x ∈ l, x.2.name ≠ g.name) (hins : mc.insertMulticastGroup a = some mc') :
    Chained mc' l ∨ Chained mc' (l ++ [(a, g)]) := by
  rcases h.tail with ⟨hcount, htail⟩ | ⟨hcount, t, htail, ht⟩
  · have hnames : ((l.map fun x => x.2.joined).map Joined.name).Nodup := by
      rw [List.map_map]
      exact h.names
    have hnot : g.name ∉ (l.map fun x => x.2.joined).map Joined.name := by
      rw [List.map_map]
      intro hm
      obtain ⟨x, hx, heq⟩ := List.mem_map.1 hm
      exact hname x hx heq
    have hrep : Represents mc (l.map fun x => x.2.joined) l :=
      ⟨h.list, rfl, hcount, htail, hnames⟩
    obtain ⟨mc'', hins', h'⟩ := insertMulticastGroup_spec hrep ha hal hnot
    obtain rfl : mc'' = mc' := Option.some.inj (hins'.symm.trans hins)
    exact Or.inr ⟨h'.list, nodup_map_concat h.names hname, h'.count.ge,
      Or.inl ⟨h'.count, h'.tail⟩⟩
  · -- `tail` is not reachable, and neither is the node behind it
    rw [GroupList.insertMulticastGroup, if_neg hcount, htail] at hins
    obtain ⟨heap₁, hm₁, hins⟩ := Option.bind_eq_some_iff.1 hins
    obtain ⟨heap₂, hm₂, hins⟩ := Option.bind_eq_some_iff.1 hins
    cases hins
    obtain ⟨n₁, -, rfl⟩ := Option.map_eq_some_iff.1 hm₁
    obtain ⟨n₂, -, rfl⟩ := Option.map_eq_some_iff.1 hm₂
    have hle := h.length_le
    exact Or.inl ⟨(h.list.write ht _).write hal _, h.names, by simp only; omega,
      Or.inr ⟨by simp only; omega, a, rfl, hal⟩⟩

/-- A group that is left is out of reach, and the others are still there. -/
theorem Chained.leave {l₁ l₂ : List (ℕ × Group)} {a : ℕ} {g : Group}
    (h : Chained mc (l₁ ++ (a, g) :: l₂)) (hleave : mc.leaveMulticastGroup a = some mc') :
    Chained mc' (l₁ ++ l₂) := by
  have hsub : (l₁ ++ l₂).Sublist (l₁ ++ (a, g) :: l₂) :=
    (List.sublist_cons_self _ _).append_left l₁
  have hle := h.length_le
  simp only [List.length_append, List.length_cons] at hle
  have hne : ∀ x ∈ l₁, x.2.name ≠ g.name := by
    have hnd := h.names
    rw [List.map_append, List.nodup_append] at hnd
    exact fun x hx => hnd.2.2 _ (List.mem_map_of_mem hx) _ (by simp)
  obtain ⟨mc'', hleave', hl, hcount, htail, -⟩ :=
    leaveMulticastGroup_of_dlist h.list hne (by omega)
  obtain rfl : mc'' = mc' := Option.some.inj (hleave'.symm.trans hleave)
  refine ⟨hl, h.names.sublist (hsub.map _), ?_, ?_⟩
  · rw [hcount, List.length_append]
    omega
  rw [hcount, htail]
  rcases h.tail with ⟨hlen, hlast⟩ | ⟨hlen, t, ht, htl⟩
  · simp only [List.length_append, List.length_cons] at hlen
    have hlast := hlast (by simp)
    rcases List.eq_nil_or_concat l₂ with rfl | ⟨l₂, x, rfl⟩
    · -- the last group, and `tail` stays at its node
      rw [lastPtr_append_singleton] at hlast
      have ha : a ∉ (l₁ ++ []).map Prod.fst := by
        have hnd := h.list.nodup
        rw [List.map_append, List.map_cons] at hnd
        simpa using (List.nodup_cons.1 (List.nodup_middle.1 hnd)).1
      by_cases hl₁ : l₁ = []
      · refine Or.inl ⟨?_, fun hne => absurd (by simp [hl₁]) hne⟩
        simp [hlen, hl₁]
      · have hpos := List.length_pos_iff.2 hl₁
        exact Or.inr ⟨by rw [hlen, List.length_nil]; omega, a, hlast, ha⟩
    · refine Or.inl ⟨by rw [List.length_append]; omega, fun _ => ?_⟩
      rw [hlast, List.concat_eq_append, ← List.cons_append, ← List.append_assoc, ← List.append_assoc,
        lastPtr_append_singleton, lastPtr_append_singleton]
  · by_cases hzero : mc.count - 1 = 0
    · obtain rfl : l₁ = [] := List.length_eq_zero_iff.1 (by omega)
      obtain rfl : l₂ = [] := List.length_eq_zero_iff.1 (by omega)
      exact Or.inl ⟨by simpa using hzero, fun hne => absurd rfl hne⟩
    · exact Or.inr ⟨hzero, t, ht, fun hm => htl ((hsub.map _).subset hm)⟩

/-- A group is created and joined. -/
theorem Chained.createAndJoin (h : Chained mc l) {j : Joined} {new : Fresh}
    (hnew : mc.heap.cells new.block = none)
    (hrun : createAndJoin inetAddr mc j.name j.ip j.port new = some mc') :
    ∃ l', Chained mc' l' ∧ Extends inetAddr j l l' := by
  rw [NetProg.GroupChat.createAndJoin] at hrun
  rcases initMulticastGroup_cases inetAddr h.list j.name j.ip j.port hnew with
    ⟨-, err, hinit⟩ | ⟨hpass, hinit⟩
  · rw [hinit] at hrun
    cases hrun
    exact ⟨l, h, Or.inl rfl⟩
  · rw [hinit] at hrun
    obtain ⟨n, -, hins⟩ := Option.bind_eq_some_iff.1 hrun
    rcases (h.write hnew _).insert (g := GroupList.newGroup inetAddr j.name j.ip j.port new)
      (by simp) (h.list.notMem_of_cells_eq_none hnew) (fun x hx => (hpass x hx).1) hins with h' | h'
    · exact ⟨l, h', Or.inl rfl⟩
    · exact ⟨_, h', Or.inr ⟨hpass, new, rfl⟩⟩

/-- What a command does to the reachable nodes : some go, or one is added. -/
theorem Chained.runCommand (h : Chained mc l) {cmd : Command} (ha : cmd.allocates mc)
    (hc : cmd ≠ .cleanup) (hrun : runCommand inetAddr mc cmd = some mc') :
    ∃ l', Chained mc' l' ∧ (l'.Sublist l ∨ ∃ j ∈ cmd.adds, Extends inetAddr j l l') := by
  cases cmd with
  | createGroup name ip port new =>
    obtain ⟨l', h', hext⟩ :=
      h.createAndJoin (j := ⟨name, ip, port⟩) (Option.isNone_iff_eq_none.1 ha) hrun
    exact ⟨l', h', Or.inr ⟨_, rfl, hext⟩⟩
  | joinGroup name reply new =>
    simp only [NetProg.GroupChat.runCommand, handleFindGroupCmd, h.findGroupByName_eq] at hrun
    cases hx : l.find? fun x => x.2.name == name with
    | some x =>
      rw [hx] at hrun
      cases hrun
      exact ⟨l, h, Or.inl (List.Sublist.refl l)⟩
    | none =>
      rw [hx] at hrun
      simp only [Option.map_none] at hrun
      cases hreply : reply.filter fun r => r.grpName == name with
      | none =>
        rw [hreply] at hrun
        cases hrun
        exact ⟨l, h, Or.inl (List.Sublist.refl l)⟩
      | some r =>
        rw [hreply] at hrun
        obtain ⟨l', h', hext⟩ := h.createAndJoin (j := ⟨r.grpName, r.ip, r.port⟩)
          (Option.isNone_iff_eq_none.1 ha) hrun
        exact ⟨l', h', Or.inr ⟨_, by simp [Command.adds, hreply], hext⟩⟩
  | leaveGroup name =>
    simp only [NetProg.GroupChat.runCommand, h.findGroupByName_eq] at hrun
    cases hx : l.find? fun x => x.2.name == name with
    | none =>
      rw [hx] at hrun
      cases hrun
      exact ⟨l, h, Or.inl (List.Sublist.refl l)⟩
    | some x =>
      rw [hx] at hrun
      obtain ⟨-, l₁, l₂, rfl, -⟩ := List.find?_eq_some_iff_append.1 hx
      exact ⟨l₁ ++ l₂, h.leave hrun, Or.inl ((List.sublist_cons_self _ _).append_left l₁)⟩
  | listGroups | select =>
    obtain ⟨-, -, rfl⟩ := Option.map_eq_some_iff.1 hrun
    exact ⟨l, h, Or.inl (List.Sublist.refl l)⟩
  | cleanup => exact absurd rfl hc

end

/-! ## Every run -/

variable {inetAddr : String → BitVec 32}

/-- A failing socket call leaves a block that is not linked, or nothing. -/
theorem tryStep_socketFails {mc : GroupList} {js : List Joined} {l : List (ℕ × Group)}
    {name ip : String} {port : ℤ} {new : Fresh} {s' : App} (h : DList mc.heap mc.head l)
    (hs : tryStep inetAddr (.running mc js) (.socketFails name ip port new) = some s') :
    s' = .running mc js ∨ mc.heap.cells new.block = none ∧
      ∃ n, s' = .running { mc with heap := mc.heap.write new.block n } js := by
  simp only [tryStep] at hs
  split at hs
  case isFalse => cases hs
  case isTrue ha =>
  have hnew := Option.isNone_iff_eq_none.1 ha
  rcases initMulticastGroup_cases inetAddr h name ip port hnew with
    ⟨-, err, hinit⟩ | ⟨-, hinit⟩
  · rw [hinit] at hs
    cases hs
    exact Or.inl rfl
  · rw [hinit] at hs
    cases hs
    exact Or.inr ⟨hnew, _, rfl⟩

/-- What an attempt does to a client whose reachable nodes form a list. -/
theorem tryStep_running {mc : GroupList} {js : List Joined} {l : List (ℕ × Group)} {a : Attempt}
    {s' : App} (h : Chained mc l) (hs : tryStep inetAddr (.running mc js) a = some s') :
    s' = .exited ∨ s' = .fault ∨ ∃ mc' js' l', s' = .running mc' js' ∧ Chained mc' l' ∧
      (l'.Sublist l ∨ ∃ cmd, a = .command cmd ∧ ∃ j ∈ cmd.adds, Extends inetAddr j l l') := by
  cases a with
  | command cmd =>
    simp only [tryStep, step] at hs
    split at hs
    case isFalse => cases hs
    case isTrue ha =>
    cases hrun : runCommand inetAddr mc cmd with
    | none =>
      rw [hrun] at hs
      cases hs
      exact Or.inr (Or.inl rfl)
    | some mc' =>
      rw [hrun] at hs
      simp only [Option.some.injEq] at hs
      subst hs
      by_cases hc : cmd = .cleanup
      · exact Or.inl (if_pos hc)
      · obtain ⟨l', h', hl'⟩ := h.runCommand ha hc hrun
        refine Or.inr (Or.inr ⟨mc', _, l', if_neg hc, h', hl'.imp_right ?_⟩)
        exact fun hadds => ⟨cmd, rfl, hadds⟩
  | socketFails name ip port new =>
    rcases tryStep_socketFails h.list hs with rfl | ⟨hnew, n, rfl⟩
    · exact Or.inr (Or.inr ⟨_, _, l, rfl, h, Or.inl (List.Sublist.refl l)⟩)
    · exact Or.inr (Or.inr ⟨_, _, l, rfl, h.write hnew _, Or.inl (List.Sublist.refl l)⟩)

/-- The reachable nodes form a list. -/
def Linked : App → Prop
  | .running mc _ => ∃ l, Chained mc l
  | .exited | .fault => True

/-- The endpoints of the list are different, too. -/
def Apart : App → Prop
  | .running mc _ => ∃ l, Chained mc l ∧ (l.map fun x => x.2.sendAddr).Nodup
  | .exited | .fault => True

theorem Linked.distinctNames {s : App} (h : Linked s) : DistinctNames s := by
  cases s with
  | running mc js =>
    obtain ⟨l, h⟩ := h
    refine ⟨_, h.list.toList_eq, ?_⟩
    rw [List.map_map]
    exact h.names
  | exited => trivial
  | fault => trivial

theorem Apart.distinct {s : App} (h : Apart s) : Distinct s := by
  cases s with
  | running mc js =>
    obtain ⟨l, h, hends⟩ := h
    refine ⟨_, h.list.toList_eq, ?_, ?_⟩
    · rw [List.map_map]
      exact h.names
    · rw [List.map_map]
      exact hends
  | exited => trivial
  | fault => trivial

theorem linked_step (s : App) (a : Attempt) (s' : App) (h : Linked s)
    (hs : tryStep inetAddr s a = some s') : Linked s' := by
  cases s with
  | exited => cases a <;> cases hs
  | fault => cases a <;> cases hs
  | running mc js =>
    obtain ⟨l, h⟩ := h
    rcases tryStep_running h hs with rfl | rfl | ⟨mc', js', l', rfl, h', -⟩
    · trivial
    · trivial
    · exact ⟨l', h'⟩

/-- A new endpoint keeps the endpoints apart. -/
theorem apart_step (s : App) (a : Attempt) (s' : App) (h : Apart s)
    (hnew : NewEndpoint inetAddr s a) (hs : tryStep inetAddr s a = some s') : Apart s' := by
  cases s with
  | exited => cases a <;> cases hs
  | fault => cases a <;> cases hs
  | running mc js =>
    obtain ⟨l, h, hends⟩ := h
    rcases tryStep_running h hs with rfl | rfl | ⟨mc', js', l', rfl, h', hl'⟩
    · trivial
    · trivial
    refine ⟨l', h', ?_⟩
    rcases hl' with hsub | ⟨cmd, rfl, j, hj, rfl | ⟨hpass, new, rfl⟩⟩
    · exact hends.sublist (hsub.map _)
    · exact hends
    · refine nodup_map_concat hends fun x hx => ?_
      refine hnew j hj _ h.list.toList_eq (fun g hg => ?_) x.2 (List.mem_map_of_mem hx)
      obtain ⟨y, hy, rfl⟩ := List.mem_map.1 hg
      exact hpass y hy

/-! ## Runs that keep `tail` -/

/-- A command that adds a group, when the name is not taken. -/
theorem runCommand_of_adds (inetAddr : String → BitVec 32) {mc : GroupList} {cmd : Command}
    {j : Joined} (hj : cmd.adds = some j) (hfind : mc.findGroupByName j.name = some none)
    (ha : cmd.allocates mc) :
    ∃ new, mc.heap.cells new.block = none ∧ cmd ≠ .cleanup ∧
      runCommand inetAddr mc cmd = createAndJoin inetAddr mc j.name j.ip j.port new := by
  cases cmd with
  | createGroup name ip port new =>
    cases hj
    exact ⟨new, Option.isNone_iff_eq_none.1 ha, by simp, rfl⟩
  | joinGroup name reply new =>
    obtain ⟨r, hr, rfl⟩ := Option.map_eq_some_iff.1 hj
    obtain ⟨-, hname⟩ := Option.filter_eq_some_iff.1 hr
    have hname : r.grpName = name := by simpa using hname
    refine ⟨new, Option.isNone_iff_eq_none.1 ha, by simp, ?_⟩
    simp only [hname] at hfind
    simp only [runCommand, handleFindGroupCmd, hfind, hr]
  | leaveGroup | listGroups | select | cleanup => cases hj

/-- While `tail` is right, a group with an endpoint that is taken is linked next to the other. -/
theorem not_distinct_step (s : App) (a : Attempt) (s' : App) (h : Good s)
    (hends : ¬NewEndpoint inetAddr s a) (hs : tryStep inetAddr s a = some s') : ¬Distinct s' := by
  cases s with
  | exited => cases a <;> cases hs
  | fault => cases a <;> cases hs
  | running mc js =>
    obtain ⟨l, h⟩ := h
    cases a with
    | socketFails => exact absurd trivial hends
    | command cmd =>
      simp only [NewEndpoint, not_forall, not_not] at hends
      obtain ⟨j, hj, gs, hgs, hpass, g, hg, heq⟩ := hends
      obtain rfl : gs = l.map Prod.snd := Option.some.inj (hgs.symm.trans h.list.toList_eq)
      have hpassl : ∀ x ∈ l, x.2.name ≠ j.name ∧ ¬(x.2.ip = j.ip ∧ x.2.port = j.port) :=
        fun x hx => hpass x.2 (List.mem_map_of_mem hx)
      have hfind : mc.findGroupByName j.name = some none := by
        rw [h.findGroupByName_eq, List.find?_eq_none.2 fun x hx => by simpa using (hpassl x hx).1]
        rfl
      simp only [tryStep, step] at hs
      split at hs
      case isFalse => cases hs
      case isTrue ha =>
      obtain ⟨new, hnew, hc, hrun⟩ := runCommand_of_adds inetAddr hj hfind ha
      rcases initMulticastGroup_cases inetAddr h.list j.name j.ip j.port hnew with
        ⟨hnot, -⟩ | ⟨-, hinit⟩
      · exact absurd hpassl hnot
      · obtain ⟨mc', hjoin, h'⟩ := createAndJoin_of_init h hpassl hnew hinit
        rw [hrun, hjoin] at hs
        simp only [if_neg hc, Option.some.injEq] at hs
        subst hs
        rintro ⟨gs, hgs, -, hnodup⟩
        obtain rfl := Option.some.inj (hgs.symm.trans h'.list.toList_eq)
        rw [List.map_append, List.map_append, List.nodup_append] at hnodup
        exact hnodup.2.2 _ (List.mem_map_of_mem hg) _ (by simp [GroupList.newGroup, endpoint]) heq

theorem good_tryStep (s : App) (a : Attempt) (s' : App) (h : Good s) (hk : KeepsTail s a)
    (hs : tryStep inetAddr s a = some s') : Good s' := by
  cases a with
  | command cmd => exact good_step s cmd s' h hk hs
  | socketFails name ip port new =>
    cases s with
    | exited => cases hs
    | fault => cases hs
    | running mc js =>
      obtain ⟨l, h⟩ := h
      rcases tryStep_socketFails h.list hs with rfl | ⟨hnew, n, rfl⟩
      · exact ⟨l, h⟩
      · have hfresh := h.list.notMem_of_cells_eq_none hnew
        exact ⟨l, h.list.write hfresh _, h.joined, h.count, h.tail, h.names⟩

/-! ## Result -/

/-- In every run the names are different, and the endpoints are as long as every group that is
added has a new one. In a run that never leaves the last of several groups, nothing else keeps
them different. -/
theorem distinct_of_newEndpoint (inetAddr : String → BitVec 32) (as : List Attempt) :
    Along (tryStep inetAddr) DistinctNames start as ∧
      (StepsMeet (tryStep inetAddr) (NewEndpoint inetAddr) start as →
        Along (tryStep inetAddr) Distinct start as) ∧
      (StepsMeet (tryStep inetAddr) KeepsTail start as → (run (tryStep inetAddr) start as).isSome →
        (Along (tryStep inetAddr) Distinct start as ↔
          StepsMeet (tryStep inetAddr) (NewEndpoint inetAddr) start as)) := by
  have hstart : Apart start := ⟨[], chained_empty, List.nodup_nil⟩
  refine ⟨?_, ?_, ?_⟩
  · exact along_of_stepsMeet (c := fun _ _ => True) (fun _ => Linked.distinctNames)
      (fun s a s' h _ => linked_step s a s' h) (show Linked start from ⟨[], chained_empty⟩)
      (stepsMeet_of_forall (fun _ _ _ => trivial) start)
  · exact along_of_stepsMeet (fun _ => Apart.distinct) apart_step hstart
  · intro hk hr
    exact along_iff_stepsMeet_within (I := fun s => Apart s ∧ Good s)
      (fun _ h => h.1.distinct)
      (fun s a s' h hk hnew hs => ⟨apart_step s a s' h.1 hnew hs, good_tryStep s a s' h.2 hk hs⟩)
      (fun s a s' h _ hnew hs => not_distinct_step s a s' h.2 hnew hs) ⟨hstart, good_start⟩ hk hr

/-- `inet_addr` on two addresses and on anything else. -/
def twoAddresses (ip : String) : BitVec 32 :=
  if ip = "239.0.0.1" then 0x010000ef else if ip = "239.0.0.2" then 0x020000ef else 0xffffffff

/-- Two groups, of which the last is left, and a third one that takes its block. -/
theorem distinct_newBlock : Along (tryStep twoAddresses) Distinct start
    [.command (.createGroup "a" "239.0.0.1" 5000 ⟨0, 3, 4⟩),
      .command (.createGroup "b" "239.0.0.2" 5000 ⟨1, 5, 6⟩),
      .command (.leaveGroup "b"), .command (.createGroup "c" "239.0.0.1" 5001 ⟨1, 5, 6⟩)] :=
  (distinct_of_newEndpoint twoAddresses _).2.1 (by decide)

/-- Ports 5000 and 70536 have the same low 16 bits. -/
def portsApart : List Attempt :=
  [.command (.createGroup "a" "239.0.0.1" 5000 ⟨0, 3, 4⟩),
    .command (.createGroup "b" "239.0.0.1" 70536 ⟨1, 5, 6⟩)]

/-- The endpoints of the reachable groups. -/
def sendAddrs : App → Option (List SockAddr)
  | .running mc _ => mc.reachable.map fun gs => gs.map Group.sendAddr
  | .exited | .fault => none

/-- Both groups are joined, and both are sent to one endpoint. -/
theorem not_distinct_portsApart : ¬Along (tryStep twoAddresses) Distinct start portsApart := by
  intro h
  obtain ⟨s, hs, haddrs⟩ := Option.map_eq_some_iff.1
    (show (run (tryStep twoAddresses) start portsApart).map sendAddrs =
      some (some [⟨0x010000ef, 5000⟩, ⟨0x010000ef, 5000⟩]) by decide)
  have hend := h.last hs
  cases s with
  | running mc js =>
    obtain ⟨gs, hgs, -, hnodup⟩ := hend
    simp only [sendAddrs, hgs, Option.map_some, Option.some.injEq] at haddrs
    rw [haddrs] at hnodup
    revert hnodup
    decide
  | exited => cases haddrs
  | fault => cases haddrs

end NetProg.GroupChat
