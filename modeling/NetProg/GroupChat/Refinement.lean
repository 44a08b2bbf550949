import NetProg.GroupChat.Groups

/-!
# The joined-group list refines a sequence of groups

`Represents mc js l` ties the list in memory to the abstract sequence `js`. Creating and
joining a group keep it (`createAndJoin_spec`), and so does leaving a group that is not
the last of several. `leave_spec` says what leaving does in every position : it never
writes `tail`, so after the last of several groups is left, `tail` points at the freed
node. `cleanup` reads the node it has just freed as soon as there is one.

`Keeps` is the condition on a step that leaves both cases out. `groupList_refines` is the
exact statement : a run shows the abstract sequence after every command, with no access
to a freed node, if and only if every step of it meets `Keeps`.
-/

namespace NetProg.GroupChat

/-- The list in memory holds the groups `js` in the nodes `l`. -/
structure Represents (mc : GroupList) (js : List Joined) (l : List (ℕ × Group)) : Prop where
  list : DList mc.heap mc.head l
  joined : l.map (fun x => x.2.joined) = js
  count : mc.count = l.length
  tail : l ≠ [] → mc.tail = lastPtr none l
  names : (js.map Joined.name).Nodup

namespace Represents

variable {mc : GroupList} {js : List Joined} {l : List (ℕ × Group)}

theorem empty : Represents GroupList.empty [] [] :=
  ⟨DList.nil _, rfl, rfl, fun h => absurd rfl h, List.nodup_nil⟩

theorem any_eq (h : Represents mc js l) (q : Joined → Bool) :
    js.any q = (l.find? fun x => q x.2.joined).isSome := by
  rw [← h.joined, List.any_map, List.isSome_find?]
  rfl

theorem findGroupByName_eq (h : Represents mc js l) (n : String) :
    mc.findGroupByName n = some ((l.find? fun x => x.2.name == n).map Prod.fst) :=
  h.list.search_eq fun g : Group => g.name == n

theorem findGroupByIpAndPort_eq (h : Represents mc js l) (ip : String) (port : ℤ) :
    mc.findGroupByIpAndPort ip port =
      some ((l.find? fun x => x.2.ip == ip && x.2.port == port).map Prod.fst) :=
  h.list.search_eq fun g : Group => g.ip == ip && g.port == port

/-- A group is found exactly when one of that name is joined. -/
theorem findGroupByName_isSome (h : Represents mc js l) (n : String) :
    ∃ p, mc.findGroupByName n = some p ∧ (p.isSome ↔ n ∈ js.map Joined.name) := by
  refine ⟨_, h.findGroupByName_eq n, ?_⟩
  have hany : js.any (fun i => i.name == n) = (l.find? fun x => x.2.name == n).isSome :=
    h.any_eq fun i => i.name == n
  rw [Option.isSome_map, ← hany, List.any_eq_true]
  simp

/-- The main loop reads the descriptors of the joined groups. -/
theorem recvFds_eq (h : Represents mc js l) :
    mc.recvFds = some (l.map fun x => x.2.recvFd) := by
  unfold GroupList.recvFds
  rw [h.list.toList_eq]
  by_cases hl : l = []
  · simp [h.count, hl]
  · have hpos : mc.count > 0 := by
      have := List.length_pos_iff.2 hl
      rw [h.count]
      omega
    rw [if_pos hpos, Option.map_some, List.map_map]
    rfl

end Represents

/-! ## The loops that go by the count -/

theorem listLoop_of_dseg {heap : Heap Group} {l : List (ℕ × Group)} {prev : Option ℕ}
    (hs : DSeg heap prev l none) :
    GroupList.listLoop heap l.length (firstPtr l none) = some (l.map fun x => x.2.joined) := by
  induction l generalizing prev with
  | nil => rfl
  | cons x l ih =>
    obtain ⟨a, g⟩ := x
    obtain ⟨ha, hl⟩ := hs
    simp [GroupList.listLoop, ha, ih hl]

/-- `listGroups` prints the joined groups in order. -/
theorem Represents.listGroups_eq {mc : GroupList} {js : List Joined} {l : List (ℕ × Group)}
    (h : Represents mc js l) : mc.listGroups = some js := by
  unfold GroupList.listGroups
  rw [h.count, Int.toNat_natCast, h.list.head_eq, listLoop_of_dseg h.list.seg, h.joined]

/-- The loop of `removeMulticastGroup` stops at the group, since no other node in front of
it has its name. -/
theorem seekGroup_of_dseg {heap : Heap Group} {a : ℕ} {g : Group} {r : List (ℕ × Group)}
    {node : Node Group} (hnode : heap.cells a = some node) {l : List (ℕ × Group)}
    {prev : Option ℕ} {fuel : ℕ} (hs : DSeg heap prev (l ++ (a, g) :: r) none)
    (hne : ∀ x ∈ l, x.2.name ≠ g.name) (hf : l.length < fuel) :
    GroupList.seekGroup heap node fuel prev (firstPtr (l ++ (a, g) :: r) none) =
      some (lastPtr prev l, some a) := by
  induction l generalizing prev fuel with
  | nil =>
    obtain ⟨fuel, rfl⟩ : ∃ k, fuel = k + 1 := ⟨fuel - 1, by simp at hf; omega⟩
    simp [GroupList.seekGroup, hnode]
  | cons x l ih =>
    obtain ⟨b, d⟩ := x
    obtain ⟨hb, hl⟩ := hs
    obtain ⟨fuel, rfl⟩ : ∃ k, fuel = k + 1 := ⟨fuel - 1, by simp at hf; omega⟩
    have hdata : node.data = g := by
      obtain ⟨n, hn, hd⟩ := hl.exists_cell (x := (a, g)) (by simp)
      rw [hnode] at hn
      obtain rfl := Option.some.inj hn
      exact hd
    have hbn : (⟨d, firstPtr (l ++ (a, g) :: r) none, prev⟩ : Node Group) ≠ node := by
      intro heq
      refine hne (b, d) (by simp) ?_
      rw [← hdata, ← heq]
    have hrest := ih hl (fun y hy => hne y (by simp [hy])) (by simpa using hf)
    rw [List.cons_append, firstPtr_cons, GroupList.seekGroup, Heap.load_some, hb]
    exact (if_neg hbn).trans hrest

/-! ## Creating and joining -/

section

variable {inetAddr : String → BitVec 32} {mc : GroupList} {js : List Joined}
  {l : List (ℕ × Group)}

/-- Link a new group behind the last one. -/
theorem insertMulticastGroup_spec (h : Represents mc js l) {a : ℕ} {g : Group}
    (ha : mc.heap.cells a = some ⟨g, none, none⟩) (hal : a ∉ l.map Prod.fst)
    (hg : g.name ∉ js.map Joined.name) :
    ∃ mc', mc.insertMulticastGroup a = some mc' ∧
      Represents mc' (js ++ [g.joined]) (l ++ [(a, g)]) := by
  have hnames : ((js ++ [g.joined]).map Joined.name).Nodup := by
    rw [List.map_append, List.nodup_append]
    refine ⟨h.names, by simp, ?_⟩
    rintro n hn m hm rfl
    obtain rfl : n = g.name := by simpa [Group.joined] using hm
    exact hg hn
  rcases List.eq_nil_or_concat l with rfl | ⟨l, ⟨t, e⟩, rfl⟩
  · have hjs : js = [] := by simpa using h.joined.symm
    have hcount : mc.count = 0 := by simpa using h.count
    refine ⟨_, by rw [GroupList.insertMulticastGroup, if_pos hcount], ?_⟩
    exact ⟨.singleton ha, by simp [hjs], by simp [hcount], fun _ => rfl, hnames⟩
  · rw [List.concat_eq_append] at h hal ⊢
    have htail : mc.tail = some t := by simpa using h.tail (by simp)
    have hcount : mc.count ≠ 0 := by
      rw [h.count]
      simp only [List.length_append, List.length_cons, List.length_nil]
      omega
    obtain ⟨h₁, h₂, hm₁, hm₂, hl⟩ := h.list.pushBack ha hal
    refine ⟨⟨h₂, mc.head, some a, mc.count + 1⟩, ?_, ?_⟩
    · simp only [GroupList.insertMulticastGroup, if_neg hcount, htail, hm₁, hm₂, Option.bind_some]
    · refine ⟨hl, ?_, ?_, fun _ => (lastPtr_append_singleton none _ (a, g)).symm, hnames⟩
      · rw [List.map_append, h.joined]
        rfl
      · simp only [h.count, List.length_append, List.length_cons, List.length_nil]
        omega

variable (inetAddr) in
/-- The two checks of `initMulticastGroup`. -/
theorem initMulticastGroup_cases (h : DList mc.heap mc.head l)
    (name ip : String) (port : ℤ) {new : Fresh} (hnew : mc.heap.cells new.block = none) :
    (¬(∀ x ∈ l, x.2.name ≠ name ∧ ¬(x.2.ip = ip ∧ x.2.port = port)) ∧
        ∃ err, mc.initMulticastGroup inetAddr name ip port new = some (.error err)) ∨
      (∀ x ∈ l, x.2.name ≠ name ∧ ¬(x.2.ip = ip ∧ x.2.port = port)) ∧
        mc.initMulticastGroup inetAddr name ip port new = some (.ok { mc with
          heap := mc.heap.write new.block
            ⟨GroupList.newGroup inetAddr name ip port new, none, none⟩ }) := by
  have hname : mc.findGroupByName name = some ((l.find? fun x => x.2.name == name).map Prod.fst) :=
    h.search_eq fun g : Group => g.name == name
  have haddr : mc.findGroupByIpAndPort ip port =
      some ((l.find? fun x => x.2.ip == ip && x.2.port == port).map Prod.fst) :=
    h.search_eq fun g : Group => g.ip == ip && g.port == port
  simp only [GroupList.initMulticastGroup, hname, haddr]
  cases hn : l.find? fun x => x.2.name == name with
  | some x =>
    have heq := List.find?_some hn
    exact Or.inl ⟨fun hpass => (hpass x (List.mem_of_find?_eq_some hn)).1 (by simpa using heq), -1, rfl⟩
  | none =>
    cases hp : l.find? fun x => x.2.ip == ip && x.2.port == port with
    | some x =>
      have heq := List.find?_some hp
      exact Or.inl ⟨fun hpass => (hpass x (List.mem_of_find?_eq_some hp)).2 (by simpa using heq), -2,
        rfl⟩
    | none =>
      refine Or.inr ⟨fun x hx => ⟨?_, ?_⟩, by simp [Heap.alloc_of_none hnew]⟩
      · simpa using List.find?_eq_none.1 hn x hx
      · simpa using List.find?_eq_none.1 hp x hx

/-- A group that passes the checks is linked behind the last one. -/
theorem createAndJoin_of_init (h : Represents mc js l) {name ip : String} {port : ℤ} {new : Fresh}
    (hpass : ∀ x ∈ l, x.2.name ≠ name ∧ ¬(x.2.ip = ip ∧ x.2.port = port))
    (hnew : mc.heap.cells new.block = none)
    (hinit : mc.initMulticastGroup inetAddr name ip port new = some (.ok { mc with
      heap := mc.heap.write new.block
        ⟨GroupList.newGroup inetAddr name ip port new, none, none⟩ })) :
    ∃ mc', createAndJoin inetAddr mc name ip port new = some mc' ∧
      Represents mc' (js ++ [⟨name, ip, port⟩])
        (l ++ [(new.block, GroupList.newGroup inetAddr name ip port new)]) := by
  have hname : name ∉ js.map Joined.name := by
    rw [← h.joined, List.map_map]
    intro hm
    obtain ⟨x, hx, heq⟩ := List.mem_map.1 hm
    exact (hpass x hx).1 heq
  have hfresh := h.list.notMem_of_cells_eq_none hnew
  let g := GroupList.newGroup inetAddr name ip port new
  let mc₁ : GroupList := { mc with heap := mc.heap.write new.block ⟨g, none, none⟩ }
  have hcell : mc₁.heap.cells new.block = some ⟨g, none, none⟩ := by simp [mc₁]
  have h₁ : Represents mc₁ js l := ⟨h.list.write hfresh _, h.joined, h.count, h.tail, h.names⟩
  obtain ⟨mc', hins, h'⟩ := insertMulticastGroup_spec h₁ hcell hfresh hname
  refine ⟨mc', ?_, h'⟩
  rw [createAndJoin, hinit]
  exact (congrArg (fun o => o.bind fun _ => mc₁.insertMulticastGroup new.block) hcell).trans hins

/-- Whether a group passes the checks, on the sequence of the groups. -/
theorem addJoined_eq (h : Represents mc js l) (j : Joined) : addJoined js j =
    if ∀ x ∈ l, x.2.name ≠ j.name ∧ ¬(x.2.ip = j.ip ∧ x.2.port = j.port) then js ++ [j] else js := by
  rw [addJoined, ← h.joined]
  simp only [List.any_map, Bool.or_eq_true, List.any_eq_true, Function.comp, Group.joined,
    beq_iff_eq, Bool.and_eq_true]
  by_cases hpass : ∀ x ∈ l, x.2.name ≠ j.name ∧ ¬(x.2.ip = j.ip ∧ x.2.port = j.port)
  · rw [if_pos hpass, if_neg]
    rintro (⟨x, hx, heq⟩ | ⟨x, hx, heq⟩)
    · exact (hpass x hx).1 heq
    · exact (hpass x hx).2 heq
  · rw [if_neg hpass, if_pos]
    simp only [not_forall] at hpass
    obtain ⟨x, hx, hbad⟩ := hpass
    by_cases hname : x.2.name = j.name
    · exact Or.inl ⟨x, hx, hname⟩
    · exact Or.inr ⟨x, hx, not_not.1 fun haddr => hbad ⟨hname, haddr⟩⟩

variable (inetAddr) in
/-- Create a group and join it : the group is added unless its name or address is taken. -/
theorem createAndJoin_spec (h : Represents mc js l) (name ip : String) (port : ℤ) {new : Fresh}
    (hnew : mc.heap.cells new.block = none) :
    ∃ mc' l', createAndJoin inetAddr mc name ip port new = some mc' ∧
      Represents mc' (addJoined js ⟨name, ip, port⟩) l' := by
  rw [addJoined_eq h]
  rcases initMulticastGroup_cases inetAddr h.list name ip port hnew with
    ⟨hnot, err, hinit⟩ | ⟨hpass, hinit⟩
  · rw [if_neg hnot]
    exact ⟨mc, l, by rw [createAndJoin, hinit], h⟩
  · rw [if_pos hpass]
    obtain ⟨mc', hjoin, h'⟩ := createAndJoin_of_init h hpass hnew hinit
    exact ⟨mc', _, hjoin, h'⟩

/-! ## Leaving -/

/-- Take a group out of the list, wherever it is. The loop gets there if the count is not too
small. -/
theorem removeMulticastGroup_of_dlist {l₁ l₂ : List (ℕ × Group)} {a : ℕ} {g : Group}
    (h : DList mc.heap mc.head (l₁ ++ (a, g) :: l₂)) (hne : ∀ x ∈ l₁, x.2.name ≠ g.name)
    (hcount : l₁.length < mc.count.toNat) :
    ∃ heap head,
      mc.removeMulticastGroup a =
        some (some { mc with heap := heap, head := head, count := mc.count - 1 }) ∧
      DList heap head (l₁ ++ l₂) ∧ heap.cells a = mc.heap.cells a := by
  obtain ⟨hs₁, ha, hs₂⟩ := dseg_append.1 h.seg
  have hseek := seekGroup_of_dseg ha h.seg hne hcount
  rw [← h.head_eq] at hseek
  rcases List.eq_nil_or_concat l₁ with rfl | ⟨l₁, ⟨p, c⟩, rfl⟩
  · rcases l₂ with _ | ⟨⟨b, e⟩, l₂⟩
    · -- the only group
      refine ⟨mc.heap, none, ?_, .nil _, rfl⟩
      simp only [firstPtr_nil, lastPtr_nil] at ha hseek
      simp [GroupList.removeMulticastGroup, ha, hseek]
    · -- the first of several
      obtain ⟨heap, hm, hl, hcell⟩ := DList.unlinkFirst h
      refine ⟨heap, some b, ?_, hl, hcell⟩
      simp only [firstPtr_cons, lastPtr_nil] at ha hseek
      simp [GroupList.removeMulticastGroup, ha, hseek, hm]
  · rw [List.concat_eq_append] at h hseek ha ⊢
    rw [lastPtr_append_singleton] at hseek ha
    rcases l₂ with _ | ⟨⟨b, e⟩, l₂⟩
    · -- the last of several
      obtain ⟨heap, hm, hl, hcell⟩ := DList.unlinkLast h
      refine ⟨heap, mc.head, ?_, by simpa using hl, hcell⟩
      simp only [firstPtr_nil] at ha hseek
      simp [GroupList.removeMulticastGroup, ha, hseek, hm]
    · -- between two others
      obtain ⟨heap₁, heap₂, hm₁, hm₂, hl, -, hcell⟩ := DList.unlinkMiddle h
      refine ⟨heap₂, mc.head, ?_, hl, hcell⟩
      simp only [firstPtr_cons] at ha hseek
      simp [GroupList.removeMulticastGroup, ha, hseek, hm₁, hm₂]

/-- Leave a group of the list : its node is freed, the links and the head are right again, and
`tail` is what it was. -/
theorem leaveMulticastGroup_of_dlist {l₁ l₂ : List (ℕ × Group)} {a : ℕ} {g : Group}
    (h : DList mc.heap mc.head (l₁ ++ (a, g) :: l₂)) (hne : ∀ x ∈ l₁, x.2.name ≠ g.name)
    (hcount : l₁.length < mc.count.toNat) :
    ∃ mc', mc.leaveMulticastGroup a = some mc' ∧ DList mc'.heap mc'.head (l₁ ++ l₂) ∧
      mc'.count = mc.count - 1 ∧ mc'.tail = mc.tail ∧ mc'.heap.cells a = none := by
  obtain ⟨n, hn, -⟩ := h.seg.exists_cell (x := (a, g)) (by simp)
  obtain ⟨heap, head, hrem, hl, hcell⟩ := removeMulticastGroup_of_dlist h hne hcount
  have hfree : heap.free (some a) = some (heap.erase a) := Heap.free_some (hcell.trans hn)
  have hal : a ∉ (l₁ ++ l₂).map Prod.fst := by
    have hnd := h.nodup
    rw [List.map_append, List.map_cons] at hnd
    rw [List.map_append]
    exact (List.nodup_cons.1 (List.nodup_middle.1 hnd)).1
  refine ⟨⟨heap.erase a, head, mc.tail, mc.count - 1⟩, ?_, hl.erase hal, rfl, rfl, by simp⟩
  simp [GroupList.leaveMulticastGroup, hn, hrem, hfree]

/-- Leave a joined group. -/
theorem leaveMulticastGroup_spec {l₁ l₂ : List (ℕ × Group)} {a : ℕ} {g : Group}
    (h : Represents mc js (l₁ ++ (a, g) :: l₂)) :
    ∃ mc', mc.leaveMulticastGroup a = some mc' ∧ DList mc'.heap mc'.head (l₁ ++ l₂) ∧
      mc'.count = (l₁ ++ l₂).length ∧ mc'.tail = mc.tail ∧ mc'.heap.cells a = none := by
  have hne : ∀ x ∈ l₁, x.2.name ≠ g.name := by
    have hnd := h.names
    rw [← h.joined, List.map_map, List.map_append, List.nodup_append] at hnd
    intro x hx
    exact hnd.2.2 _ (List.mem_map_of_mem hx) _ (by simp [Group.joined])
  have hlen : mc.count = l₁.length + l₂.length + 1 := by
    simp only [h.count, List.length_append, List.length_cons]
    omega
  obtain ⟨mc', hleave, hl, hcount, htail, hcell⟩ :=
    leaveMulticastGroup_of_dlist h.list hne (by omega)
  refine ⟨mc', hleave, hl, ?_, htail, hcell⟩
  rw [hcount, List.length_append]
  omega

/-- Leaving takes the one group of that name out of the sequence. -/
theorem joinedAfter_leaveGroup {l₁ l₂ : List (ℕ × Group)} {a : ℕ} {g : Group}
    (h : Represents mc js (l₁ ++ (a, g) :: l₂)) :
    joinedAfter js (.leaveGroup g.name) = (l₁ ++ l₂).map fun x => x.2.joined := by
  have hnd := h.names
  rw [← h.joined, List.map_map, List.map_append, List.map_cons] at hnd
  have hnot := (List.nodup_cons.1 (List.nodup_middle.1 hnd)).1
  rw [joinedAfter, ← h.joined, List.map_append, List.map_cons, List.filter_append,
    List.filter_cons_of_neg (by simp [Group.joined]), ← List.filter_append, ← List.map_append,
    List.filter_eq_self]
  intro j hj
  obtain ⟨x, hx, rfl⟩ := List.mem_map.1 hj
  rw [bne_iff_ne]
  intro heq
  refine hnot ?_
  rw [← List.map_append]
  exact List.mem_map.2 ⟨x, hx, heq⟩

/-- A pointer to the last node of a non-empty list leads to a node. -/
theorem load_lastPtr {heap : Heap Group} {head : Option ℕ} (hl : DList heap head l)
    (hne : l ≠ []) : ∃ n, heap.load (lastPtr none l) = some n := by
  obtain ⟨l, x, rfl⟩ := (List.eq_nil_or_concat l).resolve_left hne
  obtain ⟨n, hn, -⟩ := hl.seg.exists_cell (x := x) (by simp)
  exact ⟨n, by rw [List.concat_eq_append, lastPtr_append_singleton, Heap.load_some, hn]⟩

/-- `cleanup` gets through only when no group is joined. -/
theorem cleanup_isSome_iff (h : Represents mc js l) : mc.cleanup.isSome ↔ js = [] := by
  unfold GroupList.cleanup
  rcases l with _ | ⟨⟨a, g⟩, l⟩
  · have hjs : js = [] := by simpa using h.joined.symm
    have hhead : mc.head = none := h.list.head_eq
    rw [hhead]
    cases mc.heap.bound <;> simp [GroupList.cleanupLoop, hjs]
  · have hjs : js ≠ [] := by
      rintro rfl
      simpa using h.joined
    have hhead : mc.head = some a := h.list.head_eq
    have h₀ : Represents mc js ([] ++ (a, g) :: l) := h
    obtain ⟨mc', hleave, -, -, -, hcell⟩ := leaveMulticastGroup_spec h₀
    obtain ⟨n, hn, -⟩ := h.list.seg.exists_cell (x := (a, g)) (by simp)
    obtain ⟨fuel, hfuel⟩ : ∃ k, mc.heap.bound = k + 1 :=
      ⟨mc.heap.bound - 1, by have := Heap.lt_bound hn; omega⟩
    rw [hhead, hfuel]
    simp [GroupList.cleanupLoop, hleave, hcell, hjs]

end

/-! ## Steps and runs -/

/-- The client's list is the sequence of the groups joined and not yet left, and every
walk over it agrees. -/
def Refines : App → Prop
  | .running mc js =>
    (∃ l, DList mc.heap mc.head l ∧ l.map (fun x => x.2.joined) = js ∧ mc.count = l.length ∧
      (l ≠ [] → mc.tail = lastPtr none l)) ∧
    mc.listGroups = some js ∧
    ∀ n, ∃ p, mc.findGroupByName n = some p ∧ (p.isSome ↔ n ∈ js.map Joined.name)
  | .exited => True
  | .fault => False

/-- The invariant of the steps that meet `Keeps`. -/
def Good : App → Prop
  | .running mc js => ∃ l, Represents mc js l
  | .exited => True
  | .fault => False

/-- The step does not leave the last of several groups, and does not clean up while a
group is joined. -/
def Keeps : App → Command → Prop
  | .running _ js, .leaveGroup name =>
    js.length ≤ 1 ∨ js.getLast?.map Joined.name ≠ some name
  | .running _ js, .cleanup => js = []
  | _, _ => True

instance : ∀ s cmd, Decidable (Keeps s cmd)
  | .running _ js, .leaveGroup name =>
    inferInstanceAs (Decidable (js.length ≤ 1 ∨ js.getLast?.map Joined.name ≠ some name))
  | .running _ js, .cleanup => inferInstanceAs (Decidable (js = []))
  | .running _ _, .createGroup .. | .running _ _, .joinGroup .. | .running _ _, .listGroups
  | .running _ _, .select | .exited, _ | .fault, _ => .isTrue trivial

theorem good_start : Good start :=
  ⟨[], .empty⟩

theorem Good.refines {s : App} (h : Good s) : Refines s := by
  cases s with
  | running mc js =>
    obtain ⟨l, h⟩ := h
    exact ⟨⟨l, h.list, h.joined, h.count, h.tail⟩, h.listGroups_eq, h.findGroupByName_isSome⟩
  | exited => trivial
  | fault => exact h

section

variable {inetAddr : String → BitVec 32} {mc : GroupList} {js : List Joined}
  {l : List (ℕ × Group)}

variable (inetAddr) in
/-- Leaving a group, by the position of its node. -/
theorem leaveGroup_cases (h : Represents mc js l) (name : String) :
    (runCommand inetAddr mc (.leaveGroup name) = some mc ∧
      joinedAfter js (.leaveGroup name) = js ∧ name ∉ js.map Joined.name) ∨
    ∃ l₁ a g l₂ mc', l = l₁ ++ (a, g) :: l₂ ∧ g.name = name ∧
      runCommand inetAddr mc (.leaveGroup name) = some mc' ∧ mc.leaveMulticastGroup a = some mc' := by
  have hfind := h.findGroupByName_eq name
  cases hx : l.find? fun x => x.2.name == name with
  | none =>
    rw [hx] at hfind
    have hnot : name ∉ js.map Joined.name := by
      obtain ⟨p, hp, hiff⟩ := h.findGroupByName_isSome name
      obtain rfl : none = p := Option.some.inj (hfind.symm.trans hp)
      exact fun hm => absurd (hiff.2 hm) (by simp)
    refine .inl ⟨by simp [runCommand, hfind], ?_, hnot⟩
    rw [joinedAfter, List.filter_eq_self]
    rintro j hj
    rw [bne_iff_ne]
    rintro rfl
    exact hnot (List.mem_map_of_mem hj)
  | some x =>
    obtain ⟨a, g⟩ := x
    rw [hx] at hfind
    obtain ⟨hg, l₁, l₂, rfl, -⟩ := List.find?_eq_some_iff_append.1 hx
    obtain ⟨mc', hleave, -⟩ := leaveMulticastGroup_spec h
    exact .inr ⟨l₁, a, g, l₂, mc', rfl, by simpa using hg, by simp [runCommand, hfind, hleave],
      hleave⟩

/-- `Keeps` for a group that is joined, by the position of its node. -/
theorem keeps_leaveGroup_iff {l₁ l₂ : List (ℕ × Group)} {a : ℕ} {g : Group}
    (h : Represents mc js (l₁ ++ (a, g) :: l₂)) :
    Keeps (.running mc js) (.leaveGroup g.name) ↔ l₂ ≠ [] ∨ l₁ = [] := by
  have hnd := h.names
  rw [← h.joined, List.map_map, List.map_append, List.map_cons] at hnd
  have hnot := (List.nodup_cons.1 (List.nodup_middle.1 hnd)).1
  simp only [Keeps, ← h.joined]
  rcases List.eq_nil_or_concat l₂ with rfl | ⟨l₂, x, rfl⟩
  · simp [Group.joined]
  · simp only [List.concat_eq_append] at hnot ⊢
    simp only [List.mem_append, List.map_append, List.map_cons, List.map_nil, not_or,
      List.mem_singleton] at hnot
    have hlast : (l₁ ++ (a, g) :: (l₂ ++ [x])).getLast? = some x := by
      rw [← List.cons_append, ← List.append_assoc, List.getLast?_concat]
    have hname : x.2.joined.name ≠ g.name := fun heq => hnot.2.2 heq.symm
    refine ⟨fun _ => .inl (by simp), fun _ => .inr ?_⟩
    rw [List.getLast?_map, hlast]
    simpa using hname

/-- Leaving a group that is not the last of several keeps the list. -/
theorem leave_represents {l₁ l₂ : List (ℕ × Group)} {a : ℕ} {g : Group} {mc' : GroupList}
    (h : Represents mc js (l₁ ++ (a, g) :: l₂)) (hpos : l₂ ≠ [] ∨ l₁ = [])
    (hleave : mc.leaveMulticastGroup a = some mc') :
    Represents mc' (joinedAfter js (.leaveGroup g.name)) (l₁ ++ l₂) := by
  obtain ⟨mc'', hleave', hl, hcount, htail, -⟩ := leaveMulticastGroup_spec h
  obtain rfl : mc'' = mc' := Option.some.inj (hleave'.symm.trans hleave)
  refine ⟨hl, (joinedAfter_leaveGroup h).symm, hcount, fun hne => ?_, ?_⟩
  · have hne₂ : l₂ ≠ [] := by
      rcases hpos with hpos | rfl
      · exact hpos
      · exact hne
    rw [htail, h.tail (by simp), lastPtr_append_of_ne_nil (by simp) none none,
      lastPtr_append_of_ne_nil hne₂ none (some a)]
    rfl
  · rw [joinedAfter]
    exact h.names.sublist (List.filter_sublist.map _)

/-- After the last of several groups is left, `tail` points at its freed node. -/
theorem leave_last_not_refines {l₁ : List (ℕ × Group)} {a : ℕ} {g : Group} {mc' : GroupList}
    (h : Represents mc js (l₁ ++ [(a, g)])) (hne : l₁ ≠ [])
    (hleave : mc.leaveMulticastGroup a = some mc') :
    ¬Refines (.running mc' (joinedAfter js (.leaveGroup g.name))) := by
  obtain ⟨mc'', hleave', -, -, htail, hcell⟩ := leaveMulticastGroup_spec h
  obtain rfl : mc'' = mc' := Option.some.inj (hleave'.symm.trans hleave)
  rintro ⟨⟨l', hl', hjoined, -, htail'⟩, -⟩
  have hne' : l' ≠ [] := by
    rintro rfl
    rw [joinedAfter_leaveGroup h, List.append_nil] at hjoined
    exact hne (List.map_eq_nil_iff.1 hjoined.symm)
  obtain ⟨n, hn⟩ := load_lastPtr hl' hne'
  rw [← htail' hne', htail, h.tail (by simp), lastPtr_append_singleton, Heap.load_some, hcell] at hn
  cases hn

variable (inetAddr) in
/-- A command that is neither `leave-group` nor `cleanup` keeps the list. -/
theorem runCommand_represents (h : Represents mc js l) {cmd : Command}
    (ha : cmd.allocates mc) (hl : ∀ n, cmd ≠ .leaveGroup n) (hc : cmd ≠ .cleanup) :
    ∃ mc' l', runCommand inetAddr mc cmd = some mc' ∧ Represents mc' (joinedAfter js cmd) l' := by
  cases cmd with
  | createGroup name ip port new =>
    exact createAndJoin_spec inetAddr h name ip port (Option.isNone_iff_eq_none.1 ha)
  | joinGroup name reply new =>
    have hany := h.any_eq fun i => i.name == name
    simp only [Group.joined] at hany
    simp only [runCommand, handleFindGroupCmd, h.findGroupByName_eq, joinedAfter, hany]
    cases hn : l.find? fun x => x.2.name == name with
    | some x => exact ⟨mc, l, by simp, by simpa using h⟩
    | none =>
      cases reply with
      | none => exact ⟨mc, l, by simp, by simpa using h⟩
      | some r =>
        by_cases hr : r.grpName = name
        · obtain ⟨mc', l', hcj, h'⟩ := createAndJoin_spec inetAddr h r.grpName r.ip
            r.port (Option.isNone_iff_eq_none.1 ha)
          exact ⟨mc', l', by simp [Option.filter, hr, ← hcj], by simpa [hr] using h'⟩
        · exact ⟨mc, l, by simp [Option.filter, hr], by simpa [hr] using h⟩
  | leaveGroup name => exact absurd rfl (hl name)
  | listGroups => exact ⟨mc, l, by simp [runCommand, h.listGroups_eq], h⟩
  | select => exact ⟨mc, l, by simp [runCommand, h.recvFds_eq], h⟩
  | cleanup => exact absurd rfl hc

end

variable {inetAddr : String → BitVec 32}

/-- A step that meets `Keeps` keeps the list. -/
theorem good_step (s : App) (cmd : Command) (s' : App) (hs : Good s) (hk : Keeps s cmd)
    (hstep : step inetAddr s cmd = some s') : Good s' := by
  cases s with
  | exited => cases hstep
  | fault => cases hstep
  | running mc js =>
    obtain ⟨l, h⟩ := hs
    simp only [step] at hstep
    split at hstep
    case isFalse => cases hstep
    case isTrue ha =>
    by_cases hc : cmd = .cleanup
    · subst hc
      have hsome : mc.cleanup.isSome := (cleanup_isSome_iff h).2 hk
      obtain ⟨mc', hmc'⟩ := Option.isSome_iff_exists.1 hsome
      simp only [runCommand, hmc', if_true] at hstep
      obtain rfl := Option.some.inj hstep
      trivial
    · by_cases hl : ∃ n, cmd = .leaveGroup n
      · obtain ⟨n, rfl⟩ := hl
        rcases leaveGroup_cases inetAddr h n with
          ⟨hrun, hjs, -⟩ | ⟨l₁, a, g, l₂, mc', rfl, rfl, hrun, hleave⟩
        · rw [hrun] at hstep
          obtain rfl := Option.some.inj hstep
          exact ⟨l, by rw [hjs]; exact h⟩
        · rw [hrun] at hstep
          obtain rfl := Option.some.inj hstep
          rw [if_neg hc]
          exact ⟨_, leave_represents h ((keeps_leaveGroup_iff h).1 hk) hleave⟩
      · obtain ⟨mc', l', hrun, h'⟩ := runCommand_represents inetAddr h ha
          (fun n hn => hl ⟨n, hn⟩) hc
        rw [hrun] at hstep
        obtain rfl := Option.some.inj hstep
        rw [if_neg hc]
        exact ⟨l', h'⟩

/-- A step that does not meet `Keeps` breaks the list. -/
theorem not_refines_step (s : App) (cmd : Command) (s' : App) (hs : Good s) (hk : ¬Keeps s cmd)
    (hstep : step inetAddr s cmd = some s') : ¬Refines s' := by
  cases s with
  | exited => cases hstep
  | fault => cases hstep
  | running mc js =>
    obtain ⟨l, h⟩ := hs
    simp only [step] at hstep
    split at hstep
    case isFalse => cases hstep
    case isTrue =>
    cases cmd with
    | leaveGroup n =>
      rcases leaveGroup_cases inetAddr h n with
        ⟨-, -, hnot⟩ | ⟨l₁, a, g, l₂, mc', rfl, rfl, hrun, hleave⟩
      · refine absurd (.inr fun hlast => hnot ?_) hk
        obtain ⟨j, hj, rfl⟩ := Option.map_eq_some_iff.1 hlast
        exact List.mem_map_of_mem (List.mem_of_getLast? hj)
      · rw [keeps_leaveGroup_iff h, not_or, not_not] at hk
        obtain ⟨rfl, hne⟩ := hk
        rw [hrun] at hstep
        obtain rfl := Option.some.inj hstep
        simpa using leave_last_not_refines h hne hleave
    | cleanup =>
      have hnone : mc.cleanup = none := by
        rw [← Option.not_isSome_iff_eq_none, cleanup_isSome_iff h]
        exact hk
      simp only [runCommand, hnone] at hstep
      obtain rfl := Option.some.inj hstep
      exact id
    | createGroup | joinGroup | listGroups | select => exact absurd trivial hk

/-- Over every run, the joined-group list is the sequence of the groups joined and not yet
left, with right count, tail and links, and no freed node is touched, if and only if no
step leaves the last of several groups or cleans up while a group is joined. -/
theorem groupList_refines (inetAddr : String → BitVec 32) (cmds : List Command)
    (hr : (run (step inetAddr) start cmds).isSome) :
    Along (step inetAddr) Refines start cmds ↔ StepsMeet (step inetAddr) Keeps start cmds :=
  along_iff_stepsMeet (fun _ => Good.refines) good_step not_refines_step good_start hr

/-- Two groups, the second left and a third one created : the code writes `next` of the
freed node. -/
def leaveLast : List Command :=
  [.createGroup "a" "239.0.0.1" 5000 ⟨0, 3, 4⟩, .createGroup "b" "239.0.0.2" 5000 ⟨1, 5, 6⟩,
    .leaveGroup "b", .createGroup "c" "239.0.0.3" 5000 ⟨2, 7, 8⟩]

theorem groupList_leaveLast :
    run (step fun _ => 0) start leaveLast = some .fault ∧
      ¬Along (step fun _ => 0) Refines start leaveLast := by
  have hrun : run (step fun _ => 0) start leaveLast = some .fault := rfl
  exact ⟨hrun, fun h => h.last hrun⟩

/-- The first of two groups is left, then a third is created and all are listed. -/
theorem groupList_refines_leaveFirst :
    Along (step fun _ => 0) Refines start
      [.createGroup "a" "239.0.0.1" 5000 ⟨0, 3, 4⟩, .createGroup "b" "239.0.0.2" 5000 ⟨1, 5, 6⟩,
        .leaveGroup "a", .joinGroup "c" (some ⟨"c", "239.0.0.3", 5000⟩) ⟨0, 3, 4⟩, .listGroups] :=
  (groupList_refines (fun _ => 0) _ (by decide)).2 (by decide)

end NetProg.GroupChat
