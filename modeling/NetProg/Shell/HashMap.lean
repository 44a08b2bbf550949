import NetProg.Lib.HashMap
import NetProg.Lib.Run

/-!
# The shortcut map

The shell keeps its shortcuts in a chained hash map from numbers to pipelines. The hash is
the remainder by the number of buckets. `insert_into_map` and `delete_from_map` end the
process when the key is present, or absent.

In `delete_from_bucket` the line that counts the capacity down comes after the `return`, so
the capacity of a bucket is the number of insertions into it. It is a number here, and the `int`
of the source as long as fewer than 2^31 insertions are made (`insertions`). In
`NetProg.Shell.Buckets` it is an `int`, and overflows.

`live` says from the history of calls what a key should hold, and `hashMap_refines` that the map
holds it.
-/

namespace NetProg.Shell

variable {V : Type*} {n : ℕ} [NeZero n]

/-- `hash`. -/
def hash (mapSize : ℕ) [NeZero mapSize] (key : ℕ) : Fin mapSize :=
  Fin.ofNat mapSize key

/-- `hash_map` with `map_size` buckets. The data are pointers that are not NULL. -/
abbrev ShortcutMap (V : Type*) (mapSize : ℕ) [NeZero mapSize] :=
  HashMap ℕ V (hash mapSize)

/-- `init_map`. -/
def initMap (mapSize : ℕ) [NeZero mapSize] : ShortcutMap V mapSize :=
  .empty

/-- `find_in_map`. NULL is `none`. -/
def findInMap (map : ShortcutMap V n) (toFind : ℕ) : Option V :=
  map.find toFind

/-- `insert_into_map`. `none` when the assertion ends the process. -/
def insertIntoMap (map : ShortcutMap V n) (key : ℕ) (data : V) : Option (ShortcutMap V n) :=
  if h : findInMap map key = none then some (map.insert key data h) else none

/-- `delete_from_map` : the data of the node that is unlinked, and the map. `none` when an
assertion ends the process. -/
def deleteFromMap (map : ShortcutMap V n) (toDelete : ℕ) : Option (V × ShortcutMap V n) :=
  if findInMap map toDelete = none then none
  else
    ((map.bucket (hash n toDelete)).head.lookup toDelete).map fun data =>
      (data, map.erase toDelete)

/-- `get_all_map_nodes` : copies of the nodes. -/
def getAllMapNodes (map : ShortcutMap V n) : List (ℕ × V) :=
  map.entries

/-! ## Histories -/

/-- A call. -/
inductive MapOp (V : Type*) where
  | insert (key : ℕ) (data : V)
  | delete (key : ℕ)
  | find (key : ℕ)
  | getAll

/-- The map after a call. -/
def mapStep (map : ShortcutMap V n) : MapOp V → Option (ShortcutMap V n)
  | .insert key data => insertIntoMap map key data
  | .delete key => (deleteFromMap map key).map Prod.snd
  | .find _ => some map
  | .getAll => some map

/-- What the call makes of the key : `some none` when it deletes it, `none` when it is about
something else. -/
def MapOp.written (k : ℕ) : MapOp V → Option (Option V)
  | .insert key data => if key = k then some (some data) else none
  | .delete key => if key = k then some none else none
  | .find _ => none
  | .getAll => none

/-- The data of the last insertion of the key that no deletion of it follows. -/
def live (ops : List (MapOp V)) (k : ℕ) : Option V :=
  (ops.reverse.findSome? (MapOp.written k)).join

def MapOp.IsInsert : MapOp V → Bool
  | .insert _ _ => true
  | .delete _ => false
  | .find _ => false
  | .getAll => false

/-- The insertions of a history. -/
def insertions (ops : List (MapOp V)) : ℕ :=
  ops.countP MapOp.IsInsert

/-- A call that its callers may make : they insert absent keys and delete present ones. -/
def MapOp.Allowed (ops : List (MapOp V)) : MapOp V → Prop
  | .insert key _ => live ops key = none
  | .delete key => live ops key ≠ none
  | .find _ => True
  | .getAll => True

/-- Each call of the history was allowed when it was made. -/
def Orderly (ops : List (MapOp V)) : Prop :=
  ∀ pre op post, ops = pre ++ op :: post → op.Allowed pre

@[simp] theorem live_nil (k : ℕ) : live ([] : List (MapOp V)) k = none :=
  rfl

theorem live_snoc (ops : List (MapOp V)) (op : MapOp V) (k : ℕ) :
    live (ops ++ [op]) k = (op.written k).getD (live ops k) := by
  rw [live, List.reverse_append, List.reverse_singleton, List.singleton_append,
    List.findSome?_cons]
  cases op.written k with
  | none => rfl
  | some w => rfl

theorem Orderly.init {ops : List (MapOp V)} {op : MapOp V} (h : Orderly (ops ++ [op])) :
    Orderly ops ∧ op.Allowed ops :=
  ⟨fun pre op' post heq => h pre op' (post ++ [op]) (by rw [heq]; simp),
    h ops op [] rfl⟩

/-! ## Refinement -/

theorem findInMap_insert (map : ShortcutMap V n) {key : ℕ} (data : V)
    (h : findInMap map key = none) (k : ℕ) :
    findInMap (map.insert key data h) k = if k = key then some data else findInMap map k :=
  HashMap.find_insert map key k data h

theorem findInMap_erase (map : ShortcutMap V n) (key k : ℕ) :
    findInMap (map.erase key) k = if k = key then none else findInMap map k :=
  HashMap.find_erase map key k

theorem deleteFromMap_eq {map : ShortcutMap V n} {k : ℕ} {v : V} (h : findInMap map k = some v) :
    deleteFromMap map k = some (v, map.erase k) := by
  rw [deleteFromMap, if_neg (by rw [h]; exact Option.some_ne_none v), ← HashMap.find_eq]
  exact congrArg (Option.map _) h

/-- One call that is allowed. -/
theorem mapStep_refines {map : ShortcutMap V n} {ops : List (MapOp V)}
    (h : ∀ k, findInMap map k = live ops k) {op : MapOp V} (hop : op.Allowed ops) :
    ∃ map', mapStep map op = some map' ∧ ∀ k, findInMap map' k = live (ops ++ [op]) k := by
  simp only [live_snoc]
  cases op with
  | insert key data =>
    have habs : findInMap map key = none := (h key).trans hop
    refine ⟨map.insert key data habs, dif_pos habs, fun k => ?_⟩
    rw [findInMap_insert, MapOp.written]
    by_cases hk : k = key
    · rw [if_pos hk, if_pos hk.symm, Option.getD_some]
    · rw [if_neg hk, if_neg (Ne.symm hk)]
      exact h k
  | delete key =>
    obtain ⟨v, hv⟩ := Option.ne_none_iff_exists'.1 hop
    refine ⟨map.erase key, ?_, fun k => ?_⟩
    · rw [mapStep, deleteFromMap_eq ((h key).trans hv)]
      rfl
    · rw [findInMap_erase, MapOp.written]
      by_cases hk : k = key
      · rw [if_pos hk, if_pos hk.symm, Option.getD_some]
      · rw [if_neg hk, if_neg (Ne.symm hk)]
        exact h k
  | find key => exact ⟨map, rfl, h⟩
  | getAll => exact ⟨map, rfl, h⟩

theorem run_mapStep_refines {ops : List (MapOp V)} (h : Orderly ops) :
    ∃ map, run mapStep (initMap n) ops = some map ∧ ∀ k, findInMap map k = live ops k := by
  induction ops using List.reverseRecOn with
  | nil => exact ⟨initMap n, rfl, fun _ => rfl⟩
  | append_singleton ops op ih =>
    obtain ⟨hops, hop⟩ := h.init
    obtain ⟨map, hrun, hmap⟩ := ih hops
    obtain ⟨map', hstep, hmap'⟩ := mapStep_refines hmap hop
    refine ⟨map', ?_, hmap'⟩
    rw [run_append, hrun, Option.bind_some, run_cons, hstep]
    rfl

/-- One call counts one capacity up by one at most. -/
theorem capacity_le_of_mapStep {map map' : ShortcutMap V n} {op : MapOp V}
    (h : mapStep map op = some map') (i : Fin n) :
    (map'.bucket i).capacity ≤ (map.bucket i).capacity + insertions [op] := by
  cases op with
  | insert key data =>
    obtain ⟨habs, hmap⟩ := Option.dite_none_right_eq_some.1 h
    obtain rfl := Option.some.inj hmap
    refine (HashMap.capacity_insert map key data habs i).le.trans (Nat.add_le_add_left ?_ _)
    split_ifs
    · exact le_rfl
    · exact Nat.zero_le _
  | delete key =>
    obtain ⟨r, hr, rfl⟩ := Option.map_eq_some_iff.1 h
    obtain ⟨-, hr⟩ := Option.ite_none_left_eq_some.1 hr
    obtain ⟨_, -, rfl⟩ := Option.map_eq_some_iff.1 hr
    exact (HashMap.capacity_erase map key i).le
  | find key => exact (Option.some.inj h ▸ le_rfl)
  | getAll => exact (Option.some.inj h ▸ le_rfl)

/-- A capacity is at most the number of insertions. -/
theorem capacity_le_of_run {ops : List (MapOp V)} {map map' : ShortcutMap V n}
    (h : run mapStep map ops = some map') (i : Fin n) :
    (map'.bucket i).capacity ≤ (map.bucket i).capacity + insertions ops := by
  induction ops generalizing map with
  | nil => exact (Option.some.inj h ▸ le_rfl)
  | cons op ops ih =>
    obtain ⟨map₁, hstep, hr⟩ := run_cons_eq_some.1 h
    have hsum : insertions (op :: ops) = insertions [op] + insertions ops := by
      rw [← List.singleton_append, insertions, List.countP_append]
      rfl
    have hle := capacity_le_of_mapStep hstep i
    have hle' := ih hr
    omega

/-- After every history in which absent keys are inserted and present ones deleted :
`find_in_map` returns what is live, `delete_from_map` returns it and affects no other key,
and `get_all_map_nodes` lists what is live, each key once, and leaves the map as it is. No
capacity is more than the number of insertions, so that below 2^31 of them an `int` holds it. -/
theorem hashMap_refines (n : ℕ) [NeZero n] (ops : List (MapOp V)) (h : Orderly ops) :
    ∃ map, run mapStep (initMap n) ops = some map ∧
      (∀ k, findInMap map k = live ops k) ∧
      (∀ k v, live ops k = some v → ∃ map', deleteFromMap map k = some (v, map') ∧
        findInMap map' k = none ∧ ∀ k', k' ≠ k → findInMap map' k' = findInMap map k') ∧
      ((getAllMapNodes map).map Prod.fst).Nodup ∧
      (∀ k v, (k, v) ∈ getAllMapNodes map ↔ live ops k = some v) ∧
      mapStep map .getAll = some map ∧
      ∀ i, (map.bucket i).capacity ≤ insertions ops := by
  obtain ⟨map, hrun, hmap⟩ := run_mapStep_refines (n := n) h
  have hcapacity : ∀ i, (map.bucket i).capacity ≤ insertions ops := fun i =>
    (capacity_le_of_run hrun i).trans (Nat.zero_add _).le
  refine ⟨map, hrun, hmap, fun k v hk => ?_, map.nodup_entries, fun k v => ?_, rfl, hcapacity⟩
  · refine ⟨map.erase k, deleteFromMap_eq ((hmap k).trans hk), ?_, fun k' hk' => ?_⟩
    · rw [findInMap_erase, if_pos rfl]
    · rw [findInMap_erase, if_neg hk']
  · rw [← hmap]
    exact HashMap.mem_entries

/-- Two shortcuts that collide in the shell's 19 buckets, one of them deleted and set
again. -/
def resetShortcut : List (MapOp ℕ) :=
  [.insert 1 100, .insert 20 200, .delete 1, .insert 1 300]

theorem hashMap_refines_resetShortcut : ∃ map, run mapStep (initMap 19) resetShortcut = some map ∧
    findInMap map 1 = some 300 ∧ findInMap map 20 = some 200 := by
  have horderly : Orderly resetShortcut := by
    intro pre op post h
    rcases pre with _ | ⟨a, _ | ⟨b, _ | ⟨c, _ | ⟨d, pre⟩⟩⟩⟩ <;>
      simp only [resetShortcut, List.nil_append, List.cons_append, List.cons.injEq] at h
    · obtain ⟨rfl, -⟩ := h
      rfl
    · obtain ⟨rfl, rfl, -⟩ := h
      rfl
    · obtain ⟨rfl, rfl, rfl, -⟩ := h
      exact Option.some_ne_none _
    · obtain ⟨rfl, rfl, rfl, rfl, -⟩ := h
      rfl
    · simp at h
  obtain ⟨map, hrun, hmap, -⟩ := hashMap_refines 19 resetShortcut horderly
  exact ⟨map, hrun, hmap 1, hmap 20⟩

end NetProg.Shell
