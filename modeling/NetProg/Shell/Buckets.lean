import NetProg.Shell.ShortcutKeys

/-!
# The nodes of the shell's hash map

Here the map has its nodes, as `calloc` returns them, and `delete_map` frees them. Each node
has the number of its allocation, so a node that is freed twice would be seen. Keys are machine
integers, and data may be NULL.

A bucket counts its capacity up for each node that is inserted. When one is deleted, it should
count down, but the line that does stands behind the `return`. So the capacity is the length of
the chain in every state of a run exactly when nothing is deleted (`kept_iff`). `find_in_map`
only asks whether the capacity is zero, and that it is only for an empty chain. But `delete_map`
takes a capacity other than zero for a node, and reads through NULL in a bucket from which
all nodes have been deleted (`deleteMap_eq_none_iff`).

A history of these calls, with keys that are not negative, leaves the nodes that the shortcut
map has (`exists_shortcutMap`). And one that the callers may make goes through, as long as no
capacity can overflow (`exists_nodeMap`).
-/

namespace NetProg.Shell

/-- `map_node`, and the number of its allocation. -/
structure MapNode (V : Type*) where
  id : ℕ
  key : BitVec 32
  data : Option V

/-- `map_bucket`. The chain is the list of its nodes. -/
structure MapBucket (V : Type*) where
  head : List (MapNode V)
  capacity : ℕ

/-- `hash_map`, and the number of nodes that have been allocated. -/
structure NodeMap (V : Type*) (mapSize : ℕ) where
  buckets : Fin mapSize → MapBucket V
  allocated : ℕ

variable {V : Type*} {n : ℕ}

/-- `init_map`. -/
def initNodeMap (mapSize : ℕ) : NodeMap V mapSize :=
  ⟨fun _ => ⟨[], 0⟩, 0⟩

/-- `find_in_bucket`. NULL is `none`. -/
def findInBucket (bucket : MapBucket V) (toFind : BitVec 32) : Option V :=
  if bucket.capacity = 0 then none
  else (bucket.head.find? fun node => node.key = toFind).bind MapNode.data

/-- `insert_into_bucket`, with the new node. `none` when `capacity` overflows. -/
def insertIntoBucket (bucket : MapBucket V) (node : MapNode V) : Option (MapBucket V) :=
  if bucket.capacity < 2147483647 then some ⟨node :: bucket.head, bucket.capacity + 1⟩ else none

/-- `delete_from_bucket`. `none` when the assertion ends the process. -/
def deleteFromBucket (bucket : MapBucket V) (toDelete : BitVec 32) :
    Option (Option V × MapBucket V) :=
  (bucket.head.find? fun node => node.key = toDelete).map fun curr =>
    (curr.data, { bucket with head := bucket.head.eraseP fun node => node.key = toDelete })

/-- `deallocate_map_node`, on the nodes from this one on : the nodes that are freed, in their
order. `none` when `node` is NULL. -/
def deallocateMapNode : List (MapNode V) → Option (List ℕ)
  | [] => none
  | [node] => some [node.id]
  | node :: next :: rest => (deallocateMapNode (next :: rest)).map fun ids => ids ++ [node.id]

/-- `deallocate_map_bucket`. -/
def deallocateMapBucket (bucket : MapBucket V) : Option (List ℕ) :=
  if bucket.capacity ≠ 0 then deallocateMapNode bucket.head else some []

/-- `delete_map` : the nodes that are freed. -/
def deleteMap (map : NodeMap V n) : Option (List ℕ) :=
  ((List.finRange n).mapM fun i => deallocateMapBucket (map.buckets i)).map List.flatten

/-! ## Calls -/

variable [NeZero n]

/-- The bucket of a key. `none` when it would be in front of the buckets. -/
def bucketOf (mapSize : ℕ) [NeZero mapSize] (key : BitVec 32) : Option (Fin mapSize) :=
  if 0 ≤ hashInt key mapSize then some (Fin.ofNat mapSize (hashInt key mapSize).toNat) else none

/-- `find_in_map`. -/
def NodeMap.find (map : NodeMap V n) (toFind : BitVec 32) : Option (Option V) :=
  (bucketOf n toFind).map fun i => findInBucket (map.buckets i) toFind

/-- `insert_into_map`. -/
def NodeMap.insert (map : NodeMap V n) (key : BitVec 32) (data : Option V) :
    Option (NodeMap V n) :=
  (bucketOf n key).bind fun i =>
    if (findInBucket (map.buckets i) key).isNone then
      (insertIntoBucket (map.buckets i) ⟨map.allocated, key, data⟩).map fun bucket =>
        ⟨Function.update map.buckets i bucket, map.allocated + 1⟩
    else none

/-- `delete_from_map` : the data of the node that is unlinked, and the map. -/
def NodeMap.delete (map : NodeMap V n) (toDelete : BitVec 32) :
    Option (Option V × NodeMap V n) :=
  (bucketOf n toDelete).bind fun i =>
    if (findInBucket (map.buckets i) toDelete).isSome then
      (deleteFromBucket (map.buckets i) toDelete).map fun r =>
        (r.1, { map with buckets := Function.update map.buckets i r.2 })
    else none

/-- A call, with a pointer to the data. -/
inductive NodeOp (V : Type*) where
  | insert (key : BitVec 32) (data : Option V)
  | delete (key : BitVec 32)
  | find (key : BitVec 32)
  | getAll

/-- The map after a call that succeeds. -/
def callMap (map : NodeMap V n) : NodeOp V → Option (NodeMap V n)
  | .insert key data => map.insert key data
  | .delete key => (map.delete key).map Prod.snd
  | .find key => (map.find key).map fun _ => map
  | .getAll => some map

def NodeOp.IsDelete : NodeOp V → Prop
  | .delete _ => True
  | _ => False

/-- The node is linked in the map. -/
def NodeMap.Links (map : NodeMap V n) (id : ℕ) : Prop :=
  ∃ i, ∃ node ∈ (map.buckets i).head, node.id = id

/-- Each capacity is the length of the chain, and `delete_map` frees each node of the map
once, and nothing else. -/
structure Kept (map : NodeMap V n) : Prop where
  capacity : ∀ i, (map.buckets i).capacity = (map.buckets i).head.length
  freed : ∃ ids, deleteMap map = some ids ∧ ids.Nodup ∧ ∀ id, id ∈ ids ↔ map.Links id

/-! ## What the calls do -/

/-- What a call that succeeds does to the map. -/
inductive Calls (map : NodeMap V n) : NodeOp V → NodeMap V n → Prop
  | insert (i : Fin n) (key : BitVec 32) (data : Option V) (hbucket : bucketOf n key = some i)
      (habsent : findInBucket (map.buckets i) key = none) :
      Calls map (.insert key data)
        ⟨Function.update map.buckets i
          ⟨⟨map.allocated, key, data⟩ :: (map.buckets i).head, (map.buckets i).capacity + 1⟩,
          map.allocated + 1⟩
  | delete (i : Fin n) (key : BitVec 32) (v : V) (hbucket : bucketOf n key = some i)
      (hpresent : findInBucket (map.buckets i) key = some v) :
      Calls map (.delete key)
        ⟨Function.update map.buckets i
          ⟨(map.buckets i).head.eraseP fun node => node.key = key, (map.buckets i).capacity⟩,
          map.allocated⟩
  | find (key : BitVec 32) : Calls map (.find key) map
  | getAll : Calls map .getAll map

theorem calls_of_callMap {map map' : NodeMap V n} {op : NodeOp V}
    (h : callMap map op = some map') : Calls map op map' := by
  cases op with
  | insert key data =>
    obtain ⟨i, hbucket, h⟩ := Option.bind_eq_some_iff.1 h
    unfold insertIntoBucket at h
    split_ifs at h with habsent hroom
    · cases h
      exact .insert i key data hbucket (Option.isNone_iff_eq_none.1 habsent)
    · cases h
  | delete key =>
    obtain ⟨r, hr, rfl⟩ := Option.map_eq_some_iff.1 h
    obtain ⟨i, hbucket, hr⟩ := Option.bind_eq_some_iff.1 hr
    split_ifs at hr with hpresent
    obtain ⟨v, hv⟩ := Option.isSome_iff_exists.1 hpresent
    obtain ⟨r', hr', rfl⟩ := Option.map_eq_some_iff.1 hr
    obtain ⟨curr, -, rfl⟩ := Option.map_eq_some_iff.1 hr'
    exact .delete i key v hbucket hv
  | find key =>
    obtain ⟨_, -, rfl⟩ := Option.map_eq_some_iff.1 h
    exact .find key
  | getAll =>
    cases h
    exact .getAll

/-! ## Nodes -/

/-- Each allocation is one node of the map at most. -/
structure Intact (map : NodeMap V n) : Prop where
  allocated : ∀ i, ∀ node ∈ (map.buckets i).head, node.id < map.allocated
  nodup : ∀ i, ((map.buckets i).head.map MapNode.id).Nodup
  apart : ∀ i j, i ≠ j →
    ((map.buckets i).head.map MapNode.id).Disjoint ((map.buckets j).head.map MapNode.id)

omit [NeZero n] in
theorem intact_initNodeMap : Intact (initNodeMap n : NodeMap V n) :=
  ⟨fun _ _ h => absurd h List.not_mem_nil, fun _ => List.nodup_nil,
    fun _ _ _ _ h => absurd h List.not_mem_nil⟩

omit [NeZero n] in
theorem Intact.id_lt {map : NodeMap V n} (h : Intact map) {i : Fin n} {id : ℕ}
    (hid : id ∈ (map.buckets i).head.map MapNode.id) : id < map.allocated := by
  obtain ⟨node, hnode, rfl⟩ := List.mem_map.1 hid
  exact h.allocated i node hnode

omit [NeZero n] in
/-- One bucket gets other nodes : a new one, or some of its own. -/
theorem Intact.update {map map' : NodeMap V n} (h : Intact map) {i : Fin n}
    (hsame : ∀ j, j ≠ i → map'.buckets j = map.buckets j) (hle : map.allocated ≤ map'.allocated)
    (hids : ∀ id ∈ (map'.buckets i).head.map MapNode.id, id < map'.allocated ∧
      (id ∈ (map.buckets i).head.map MapNode.id ∨ map.allocated ≤ id))
    (hnodup : ((map'.buckets i).head.map MapNode.id).Nodup) : Intact map' := by
  have hother : ∀ j, i ≠ j →
      ((map'.buckets i).head.map MapNode.id).Disjoint ((map.buckets j).head.map MapNode.id) := by
    intro j hij id hid hidj
    rcases (hids id hid).2 with hold | hnew
    · exact h.apart i j hij hold hidj
    · exact absurd (h.id_lt hidj) (by omega)
  refine ⟨fun j node hnode => ?_, fun j => ?_, fun j k hjk => ?_⟩
  · by_cases hj : j = i
    · subst hj
      exact (hids node.id (List.mem_map_of_mem hnode)).1
    · rw [hsame j hj] at hnode
      exact (h.allocated j node hnode).trans_le hle
  · by_cases hj : j = i
    · subst hj
      exact hnodup
    · rw [hsame j hj]
      exact h.nodup j
  · by_cases hj : j = i
    · subst hj
      rw [hsame k (Ne.symm hjk)]
      exact hother k hjk
    · by_cases hk : k = i
      · subst hk
        rw [hsame j hj]
        exact (hother j (Ne.symm hj)).symm
      · rw [hsame j hj, hsame k hk]
        exact h.apart j k hjk

theorem Intact.calls {map map' : NodeMap V n} {op : NodeOp V} (h : Intact map)
    (hcall : Calls map op map') : Intact map' := by
  cases hcall with
  | insert i key data hbucket habsent =>
    refine h.update (fun j hj => Function.update_of_ne hj _ _) (Nat.le_succ _) ?_ ?_
    · simp only [Function.update_self, List.map_cons]
      refine List.forall_mem_cons.2 ⟨⟨Nat.lt_succ_self _, .inr le_rfl⟩, fun id hid => ?_⟩
      exact ⟨(h.id_lt hid).trans (Nat.lt_succ_self _), .inl hid⟩
    · simp only [Function.update_self, List.map_cons]
      exact List.nodup_cons.2 ⟨fun hid => absurd (h.id_lt hid) (lt_irrefl _), h.nodup _⟩
  | delete i key v hbucket hpresent =>
    have hsub : (((map.buckets i).head.eraseP fun node => node.key = key).map MapNode.id).Sublist
        ((map.buckets i).head.map MapNode.id) := List.eraseP_sublist.map _
    refine h.update (fun j hj => Function.update_of_ne hj _ _) le_rfl ?_ ?_
    · simp only [Function.update_self]
      exact fun id hid => ⟨h.id_lt (hsub.subset hid), .inl (hsub.subset hid)⟩
    · simp only [Function.update_self]
      exact (h.nodup _).sublist hsub
  | find key => exact h
  | getAll => exact h

/-! ## Capacities -/

/-- Each capacity is the length of the chain. -/
def Counted (map : NodeMap V n) : Prop :=
  ∀ i, (map.buckets i).capacity = (map.buckets i).head.length

theorem Counted.calls {map map' : NodeMap V n} {op : NodeOp V} (h : Counted map)
    (hop : ¬op.IsDelete) (hcall : Calls map op map') : Counted map' := by
  cases hcall with
  | insert i key data hbucket habsent =>
    intro j
    by_cases hj : j = i
    · subst hj
      simp only [Function.update_self, List.length_cons]
      exact congrArg Nat.succ (h _)
    · simp only [Function.update_of_ne hj]
      exact h j
  | delete i key v hbucket hpresent => exact absurd trivial hop
  | find key => exact h
  | getAll => exact h

omit [NeZero n] in
/-- A key that is found has a node. -/
theorem exists_node_of_find {bucket : MapBucket V} {key : BitVec 32} {v : V}
    (h : findInBucket bucket key = some v) : ∃ node ∈ bucket.head, node.key = key := by
  unfold findInBucket at h
  split_ifs at h
  obtain ⟨node, hnode, -⟩ := Option.bind_eq_some_iff.1 h
  exact ⟨node, List.mem_of_find?_eq_some hnode, by simpa using List.find?_some hnode⟩

/-- After a deletion the capacity is too large. -/
theorem not_counted_of_delete {map map' : NodeMap V n} {op : NodeOp V} (h : Counted map)
    (hop : op.IsDelete) (hcall : Calls map op map') : ¬Counted map' := by
  cases hcall with
  | insert i key data hbucket habsent => exact hop.elim
  | delete i key v hbucket hpresent =>
    intro hcounted
    obtain ⟨node, hnode, hkey⟩ := exists_node_of_find hpresent
    have hafter := hcounted i
    simp only [Function.update_self] at hafter
    rw [List.length_eraseP_of_mem hnode (by simpa using hkey)] at hafter
    have hbefore := h i
    have hpos : 0 < (map.buckets i).head.length := List.length_pos_of_mem hnode
    omega
  | find key => exact hop.elim
  | getAll => exact hop.elim

/-! ## Deallocation -/

theorem deallocateMapNode_eq {nodes : List (MapNode V)} (h : nodes ≠ []) :
    deallocateMapNode nodes = some (nodes.map MapNode.id).reverse := by
  induction nodes with
  | nil => exact absurd rfl h
  | cons node nodes ih =>
    cases nodes with
    | nil => rfl
    | cons next rest =>
      rw [deallocateMapNode, ih (List.cons_ne_nil _ _), Option.map_some, List.map_cons,
        List.reverse_cons, List.map_cons, List.map_cons, List.reverse_cons, List.reverse_cons]

theorem deallocateMapBucket_eq_none_iff {bucket : MapBucket V} :
    deallocateMapBucket bucket = none ↔ bucket.capacity ≠ 0 ∧ bucket.head = [] := by
  rw [deallocateMapBucket]
  by_cases hcapacity : bucket.capacity ≠ 0
  · rw [if_pos hcapacity, and_iff_right hcapacity]
    by_cases hhead : bucket.head = []
    · rw [hhead]
      exact iff_of_true rfl rfl
    · rw [deallocateMapNode_eq hhead]
      exact iff_of_false (Option.some_ne_none _) hhead
  · rw [if_neg hcapacity]
    exact iff_of_false (Option.some_ne_none _) fun h => hcapacity h.1

omit [NeZero n] in
/-- `delete_map` reads through NULL when a bucket has lost all its nodes. -/
theorem deleteMap_eq_none_iff {map : NodeMap V n} :
    deleteMap map = none ↔ ∃ i, (map.buckets i).capacity ≠ 0 ∧ (map.buckets i).head = [] := by
  have hmapM : ∀ is : List (Fin n),
      (is.mapM fun i => deallocateMapBucket (map.buckets i)) = none ↔
        ∃ i ∈ is, deallocateMapBucket (map.buckets i) = none := by
    intro is
    induction is with
    | nil => simp
    | cons i is ih =>
      rw [List.mapM_cons]
      cases hi : deallocateMapBucket (map.buckets i) with
      | none => simp [hi]
      | some ids =>
        cases his : is.mapM fun i => deallocateMapBucket (map.buckets i) with
        | none => simpa [hi] using ih.1 his
        | some idss =>
          have hnot : ¬∃ i ∈ is, deallocateMapBucket (map.buckets i) = none := fun h => by
            rw [ih.2 h] at his
            cases his
          simpa [hi] using hnot
  rw [deleteMap, Option.map_eq_none_iff, hmapM]
  simp only [List.mem_finRange, true_and, deallocateMapBucket_eq_none_iff]

theorem deallocateMapBucket_eq {bucket : MapBucket V}
    (h : bucket.capacity = bucket.head.length) :
    deallocateMapBucket bucket = some (bucket.head.map MapNode.id).reverse := by
  rw [deallocateMapBucket, h]
  by_cases hhead : bucket.head = []
  · rw [hhead]
    rfl
  · rw [if_pos (mt List.length_eq_zero_iff.1 hhead), deallocateMapNode_eq hhead]

omit [NeZero n] in
theorem deleteMap_eq {map : NodeMap V n} (h : Counted map) : deleteMap map =
    some ((List.finRange n).flatMap fun i => ((map.buckets i).head.map MapNode.id).reverse) := by
  have hbuckets : (fun i => deallocateMapBucket (map.buckets i)) =
      fun i => some ((map.buckets i).head.map MapNode.id).reverse :=
    funext fun i => deallocateMapBucket_eq (h i)
  rw [deleteMap, hbuckets, List.flatMap_def]
  exact congrArg (Option.map List.flatten) List.mapM_pure

omit [NeZero n] in
/-- A map whose capacities are right is deallocated. -/
theorem kept_of_counted {map : NodeMap V n} (h : Intact map) (hcounted : Counted map) :
    Kept map := by
  refine ⟨hcounted, _, deleteMap_eq hcounted, ?_, fun id => ?_⟩
  · rw [List.nodup_flatMap]
    refine ⟨fun i _ => List.nodup_reverse.2 (h.nodup i), ?_⟩
    refine (List.nodup_finRange n).imp fun {i j} hij id hi hj => ?_
    exact h.apart i j hij (List.mem_reverse.1 hi) (List.mem_reverse.1 hj)
  · simp only [List.mem_flatMap, List.mem_finRange, true_and, List.mem_reverse, List.mem_map]
    rfl

/-! ## Histories -/

/-- The capacities are right and `delete_map` frees every node once, in every state of a
history of calls that succeed, exactly when the history deletes nothing. -/
theorem kept_iff {ops : List (NodeOp V)}
    (hr : (run callMap (initNodeMap n) ops).isSome) :
    Along callMap Kept (initNodeMap n) ops ↔ ∀ op ∈ ops, ¬op.IsDelete := by
  rw [← stepsMeet_iff_forall hr]
  refine along_iff_stepsMeet (I := fun map => Intact map ∧ Counted map)
    (fun map h => kept_of_counted h.1 h.2) ?_ ?_ ⟨intact_initNodeMap, fun _ => rfl⟩ hr
  · rintro map op map' ⟨hintact, hcounted⟩ hop hstep
    have hcall := calls_of_callMap hstep
    exact ⟨hintact.calls hcall, hcounted.calls hop hcall⟩
  · rintro map op map' ⟨-, hcounted⟩ hop hstep hkept
    exact not_counted_of_delete hcounted (not_not.1 hop) (calls_of_callMap hstep) hkept.capacity

/-- Two shortcuts in one bucket. -/
def twoShortcuts : List (NodeOp ℕ) :=
  [.insert 1 (some 100), .insert 20 (some 200)]

theorem kept_iff_twoShortcuts :
    Along callMap Kept (initNodeMap 19 : NodeMap ℕ 19) twoShortcuts ↔
      ∀ op ∈ twoShortcuts, ¬op.IsDelete :=
  kept_iff (by decide)

/-- A shortcut that is deleted. -/
def oneShortcut : List (NodeOp ℕ) :=
  [.insert 1 (some 100), .delete 1]

/-- `delete_map` reads through NULL in its bucket. -/
theorem not_kept_oneShortcut : ∃ map, run callMap (initNodeMap 19) oneShortcut = some map ∧
    deleteMap map = none ∧ ¬Kept map := by
  have hsome : ((run callMap (initNodeMap 19) oneShortcut).bind deleteMap).isNone ∧
      (run callMap (initNodeMap 19) oneShortcut).isSome := by decide
  obtain ⟨map, hmap⟩ := Option.isSome_iff_exists.1 hsome.2
  have hdelete : deleteMap map = none := by
    rw [hmap] at hsome
    exact Option.isNone_iff_eq_none.1 hsome.1
  refine ⟨map, hmap, hdelete, fun hkept => ?_⟩
  obtain ⟨ids, hids, -⟩ := hkept.freed
  rw [hdelete] at hids
  cases hids

/-! ## The shortcut map -/

/-- The call on the nodes, with a pointer to the data. -/
def MapOp.onNodes : MapOp V → NodeOp V
  | .insert key data => .insert (BitVec.ofNat 32 key) (some data)
  | .delete key => .delete (BitVec.ofNat 32 key)
  | .find key => .find (BitVec.ofNat 32 key)
  | .getAll => .getAll

/-- An `int` holds the key. -/
def MapOp.KeyFits : MapOp V → Prop
  | .insert key _ => key < 2147483648
  | .delete key => key < 2147483648
  | .find key => key < 2147483648
  | .getAll => True

theorem bucketOf_ofNat {key : ℕ} (h : key < 2147483648) :
    bucketOf n (BitVec.ofNat 32 key) = some (hash n key) := by
  rw [bucketOf, hash_eq h, if_pos (Int.natCast_nonneg _), Int.toNat_natCast]
  exact congrArg some (Fin.ofNat_val_eq_self _)

theorem eq_ofNat_iff {k : BitVec 32} {key : ℕ} (h : key < 2147483648) :
    k = BitVec.ofNat 32 key ↔ k.toNat = key := by
  rw [← BitVec.toNat_inj, BitVec.toNat_ofNat, Nat.mod_eq_of_lt (by omega)]

/-- The buckets have the same nodes and capacities. -/
structure Simulates (map : NodeMap V n) (s : ShortcutMap V n) : Prop where
  nodes : ∀ i, (map.buckets i).head.map (fun node => (node.key.toNat, node.data)) =
    (s.bucket i).head.map fun e => (e.1, some e.2)
  capacity : ∀ i, (map.buckets i).capacity = (s.bucket i).capacity

omit [NeZero n] in
theorem find?_eq_lookup {nodes : List (MapNode V)} {l : List (ℕ × V)}
    (h : nodes.map (fun node => (node.key.toNat, node.data)) = l.map fun e => (e.1, some e.2))
    {key : ℕ} (hkey : key < 2147483648) :
    (nodes.find? fun node => node.key = BitVec.ofNat 32 key).bind MapNode.data = l.lookup key := by
  simp only [eq_ofNat_iff hkey]
  induction nodes generalizing l with
  | nil =>
    obtain rfl : l = [] := by simpa using h.symm
    rfl
  | cons node nodes ih =>
    cases l with
    | nil => cases h
    | cons e l =>
      obtain ⟨hhead, htail⟩ := List.cons.inj h
      obtain ⟨hnode, hdata⟩ := Prod.mk.inj hhead
      by_cases hk : node.key.toNat = key
      · rw [List.find?_cons_of_pos (by simpa using hk), Option.bind_some, hdata, List.lookup_cons,
          beq_iff_eq.2 (hnode ▸ hk.symm)]
      · rw [List.find?_cons_of_neg (by simpa using hk), ih htail, List.lookup_cons,
          beq_false_of_ne (hnode ▸ Ne.symm hk)]

theorem Simulates.find_eq {map : NodeMap V n} {s : ShortcutMap V n} (h : Simulates map s)
    {key : ℕ} (hkey : key < 2147483648) :
    findInBucket (map.buckets (hash n key)) (BitVec.ofNat 32 key) = findInMap s key := by
  rw [findInBucket, h.capacity, find?_eq_lookup (h.nodes _) hkey]
  rfl

/-- One bucket of both maps gets other nodes. -/
theorem Simulates.update {map map' : NodeMap V n} {s s' : ShortcutMap V n} (h : Simulates map s)
    {i : Fin n} (hsame : ∀ j, j ≠ i → map'.buckets j = map.buckets j ∧ s'.bucket j = s.bucket j)
    (hnodes : (map'.buckets i).head.map (fun node => (node.key.toNat, node.data)) =
      (s'.bucket i).head.map fun e => (e.1, some e.2))
    (hcapacity : (map'.buckets i).capacity = (s'.bucket i).capacity) : Simulates map' s' := by
  refine ⟨fun j => ?_, fun j => ?_⟩
  · by_cases hj : j = i
    · rw [hj, hnodes]
    · rw [(hsame j hj).1, (hsame j hj).2, h.nodes]
  · by_cases hj : j = i
    · rw [hj, hcapacity]
    · rw [(hsame j hj).1, (hsame j hj).2, h.capacity]

theorem Simulates.calls {map map' : NodeMap V n} {s : ShortcutMap V n} {op : MapOp V}
    (h : Simulates map s) (hfits : op.KeyFits) (hstep : callMap map op.onNodes = some map') :
    ∃ s', mapStep s op = some s' ∧ Simulates map' s' := by
  cases op with
  | insert key data =>
    cases calls_of_callMap hstep with
    | insert i _ _ hbucket habsent =>
      obtain rfl := Option.some.inj ((bucketOf_ofNat hfits).symm.trans hbucket)
      rw [h.find_eq hfits] at habsent
      have hsame : ∀ j, j ≠ hash n key → (s.insert key data habsent).bucket j = s.bucket j :=
        fun j hj => Function.update_of_ne hj _ _
      refine ⟨s.insert key data habsent, dif_pos habsent,
        h.update (fun j hj => ⟨Function.update_of_ne hj _ _, hsame j hj⟩) ?_ ?_⟩
      · simp only [Function.update_self, HashMap.insert, Bucket.insert, List.map_cons]
        rw [h.nodes, (eq_ofNat_iff hfits).1 rfl]
      · simp only [Function.update_self, HashMap.insert, Bucket.insert]
        exact congrArg Nat.succ (h.capacity _)
  | delete key =>
    cases calls_of_callMap hstep with
    | delete i _ v hbucket hpresent =>
      obtain rfl := Option.some.inj ((bucketOf_ofNat hfits).symm.trans hbucket)
      rw [h.find_eq hfits] at hpresent
      have hsame : ∀ j, j ≠ hash n key → (s.erase key).bucket j = s.bucket j :=
        fun j hj => Function.update_of_ne hj _ _
      refine ⟨s.erase key, ?_,
        h.update (fun j hj => ⟨Function.update_of_ne hj _ _, hsame j hj⟩) ?_ ?_⟩
      · rw [mapStep, deleteFromMap_eq hpresent]
        rfl
      · have hnodes := congrArg (List.eraseP fun e => e.1 = key) (h.nodes (hash n key))
        rw [List.eraseP_map, List.eraseP_map] at hnodes
        simp only [Function.update_self, HashMap.erase, Bucket.erase, eq_ofNat_iff hfits]
        exact hnodes
      · simp only [Function.update_self, HashMap.erase, Bucket.erase]
        exact h.capacity _
  | find key =>
    cases calls_of_callMap hstep
    exact ⟨s, rfl, h⟩
  | getAll =>
    cases hstep
    exact ⟨s, rfl, h⟩

/-- What the calls do to the nodes, they do to the shortcut map. -/
theorem run_simulates {ops : List (MapOp V)} {map map' : NodeMap V n} {s : ShortcutMap V n}
    (h : Simulates map s) (hfits : ∀ op ∈ ops, op.KeyFits)
    (hr : run callMap map (ops.map MapOp.onNodes) = some map') :
    ∃ s', run mapStep s ops = some s' ∧ Simulates map' s' := by
  induction ops generalizing map s with
  | nil =>
    cases hr
    exact ⟨s, rfl, h⟩
  | cons op ops ih =>
    obtain ⟨hop, hfits⟩ := List.forall_mem_cons.1 hfits
    obtain ⟨map₁, hstep, hr⟩ := run_cons_eq_some.1 hr
    obtain ⟨s₁, hs₁, h₁⟩ := h.calls hop hstep
    obtain ⟨s', hs', h'⟩ := ih h₁ hfits hr
    exact ⟨s', run_cons_eq_some.2 ⟨s₁, hs₁, hs'⟩, h'⟩

theorem simulates_initNodeMap : Simulates (initNodeMap n : NodeMap V n) (initMap n) :=
  ⟨fun _ => rfl, fun _ => rfl⟩

/-- A history of calls that succeed leaves the nodes of the shortcut map. -/
theorem exists_shortcutMap {ops : List (MapOp V)} {map : NodeMap V n}
    (hfits : ∀ op ∈ ops, op.KeyFits)
    (hr : run callMap (initNodeMap n) (ops.map MapOp.onNodes) = some map) :
    ∃ s, run mapStep (initMap n) ops = some s ∧ Simulates map s :=
  run_simulates simulates_initNodeMap hfits hr

/-- A call that goes through on the shortcut map goes through on the nodes, unless its bucket is
counted up to `INT_MAX` already. -/
theorem Simulates.exists_call {map : NodeMap V n} {s s' : ShortcutMap V n} {op : MapOp V}
    (h : Simulates map s) (hfits : op.KeyFits) (hstep : mapStep s op = some s')
    (hroom : ∀ i, (s.bucket i).capacity + insertions [op] ≤ 2147483647) :
    ∃ map', callMap map op.onNodes = some map' := by
  cases op with
  | insert key data =>
    obtain ⟨habsent, -⟩ := Option.dite_none_right_eq_some.1 hstep
    rw [← h.find_eq hfits] at habsent
    have hlt : (map.buckets (hash n key)).capacity < 2147483647 := by
      rw [h.capacity]
      exact hroom (hash n key)
    rw [MapOp.onNodes, callMap, NodeMap.insert, bucketOf_ofNat hfits, Option.bind_some,
      if_pos (Option.isNone_iff_eq_none.2 habsent), insertIntoBucket, if_pos hlt]
    exact ⟨_, rfl⟩
  | delete key =>
    obtain ⟨r, hr, -⟩ := Option.map_eq_some_iff.1 hstep
    obtain ⟨hpresent, -⟩ := Option.ite_none_left_eq_some.1 hr
    rw [← h.find_eq hfits] at hpresent
    obtain ⟨v, hv⟩ := Option.ne_none_iff_exists'.1 hpresent
    rw [MapOp.onNodes, callMap, NodeMap.delete, bucketOf_ofNat hfits, Option.bind_some, hv,
      if_pos (Option.isSome_some), deleteFromBucket]
    unfold findInBucket at hv
    split_ifs at hv
    obtain ⟨node, hnode, -⟩ := Option.bind_eq_some_iff.1 hv
    rw [hnode]
    exact ⟨_, rfl⟩
  | find key =>
    rw [MapOp.onNodes, callMap, NodeMap.find, bucketOf_ofNat hfits]
    exact ⟨_, rfl⟩
  | getAll => exact ⟨map, rfl⟩

/-- A history that the callers may make, with fewer than 2^31 insertions, goes through on the nodes
as it does on the shortcut map. -/
theorem exists_nodeMap {ops : List (MapOp V)} (h : Orderly ops)
    (hfits : ∀ op ∈ ops, op.KeyFits) (hcount : insertions ops < 2147483648) :
    ∃ (map : NodeMap V n) (s : ShortcutMap V n),
      run callMap (initNodeMap n) (ops.map MapOp.onNodes) = some map ∧
        run mapStep (initMap n) ops = some s ∧ Simulates map s := by
  induction ops using List.reverseRecOn with
  | nil => exact ⟨initNodeMap n, initMap n, rfl, rfl, simulates_initNodeMap⟩
  | append_singleton ops op ih =>
    have hsum : insertions (ops ++ [op]) = insertions ops + insertions [op] :=
      List.countP_append
    obtain ⟨hops, hop⟩ := List.forall_mem_append.1 hfits
    have hkey := List.forall_mem_singleton.1 hop
    obtain ⟨map, s, hr, hs, hsim⟩ := ih h.init.1 hops (by omega)
    obtain ⟨s', hs', -⟩ := run_mapStep_refines (n := n) h
    have hstep : mapStep s op = some s' := by
      rw [run_append, hs, Option.bind_some] at hs'
      obtain ⟨s₁, hs₁, hnil⟩ := run_cons_eq_some.1 hs'
      rw [hs₁, ← Option.some.inj hnil]
    have hroom : ∀ i, (s.bucket i).capacity + insertions [op] ≤ 2147483647 := fun i => by
      have hle := capacity_le_of_run hs i
      change _ ≤ 0 + _ at hle
      omega
    obtain ⟨map', hmap'⟩ := hsim.exists_call hkey hstep hroom
    obtain ⟨s'', hs'', hsim'⟩ := hsim.calls hkey hmap'
    obtain rfl := Option.some.inj (hstep.symm.trans hs'')
    refine ⟨map', s', ?_, hs', hsim'⟩
    rw [List.map_append, run_append, hr, Option.bind_some, List.map_singleton, run_cons, hmap']
    rfl

end NetProg.Shell
