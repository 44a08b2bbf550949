import Mathlib.Tactic

/-!
# Chained hash maps

A map keeps one bucket for each hash value : a chain of nodes, the newest first, and a
number `capacity`. `find` gives up in a bucket of capacity 0 before it looks at the chain.
For that to be right the capacity need not be the length of the chain. It is enough that
the chain is not longer, so `erase` may leave the capacity as it is, and this is what a
bucket carries.

`HashMap` carries the rest : each node is in the bucket of its key, and no key occurs twice.
The lemmas say what `find` and `entries` return after each operation, and nothing outside
this file looks into a bucket.
-/

namespace NetProg

variable {K V : Type*} [DecidableEq K]

/-! ## Association lists -/

theorem lookup_eq_none_of_notMem {l : List (K × V)} {k : K} (h : k ∉ l.map Prod.fst) :
    l.lookup k = none := by
  rw [List.lookup_eq_none_iff]
  intro e he
  rw [bne_iff_ne]
  rintro rfl
  exact h (List.mem_map_of_mem he)

theorem lookup_eq_some_iff_mem {l : List (K × V)} (hnd : (l.map Prod.fst).Nodup) {k : K} {v : V} :
    l.lookup k = some v ↔ (k, v) ∈ l := by
  induction l with
  | nil => simp
  | cons e l ih =>
    obtain ⟨k', v'⟩ := e
    obtain ⟨hnot, hnd⟩ := List.nodup_cons.1 hnd
    by_cases hk : k = k'
    · subst hk
      have hmem : (k, v) ∉ l := fun h => hnot (List.mem_map.2 ⟨_, h, rfl⟩)
      simp [hmem, eq_comm]
    · rw [List.lookup_cons, beq_false_of_ne hk]
      simp [ih hnd, hk]

/-- Removing the first node of a key removes the key. -/
theorem lookup_eraseP {l : List (K × V)} (hnd : (l.map Prod.fst).Nodup) (k k' : K) :
    (l.eraseP fun e => e.1 = k).lookup k' = if k' = k then none else l.lookup k' := by
  induction l with
  | nil => simp
  | cons e l ih =>
    obtain ⟨k₀, v₀⟩ := e
    obtain ⟨hnot, hnd⟩ := List.nodup_cons.1 hnd
    by_cases hk₀ : k₀ = k
    · subst hk₀
      rw [List.eraseP_cons_of_pos (by simp)]
      split
      · rename_i hk'
        rw [hk']
        exact lookup_eq_none_of_notMem hnot
      · rename_i hk'
        rw [List.lookup_cons, beq_false_of_ne hk']
    · rw [List.eraseP_cons_of_neg (by simpa using hk₀), List.lookup_cons, List.lookup_cons, ih hnd]
      by_cases hk' : k' = k₀
      · subst hk'
        simp [hk₀]
      · simp [beq_false_of_ne hk']

/-! ## Buckets -/

/-- A chain of nodes, and a capacity that is at least their number. -/
structure Bucket (K V : Type*) where
  head : List (K × V)
  capacity : ℕ
  length_le : head.length ≤ capacity

namespace Bucket

def empty : Bucket K V :=
  ⟨[], 0, le_rfl⟩

/-- The data of the first node with the key. -/
def find (b : Bucket K V) (k : K) : Option V :=
  if b.capacity = 0 then none else b.head.lookup k

/-- A new node at the front. -/
def insert (b : Bucket K V) (k : K) (v : V) : Bucket K V :=
  ⟨(k, v) :: b.head, b.capacity + 1, by simpa using b.length_le⟩

/-- Unlink the first node with the key. The capacity stays. -/
def erase (b : Bucket K V) (k : K) : Bucket K V :=
  ⟨b.head.eraseP fun e => e.1 = k, b.capacity, List.length_eraseP_le.trans b.length_le⟩

theorem find_eq (b : Bucket K V) (k : K) : b.find k = b.head.lookup k := by
  unfold find
  split
  · rename_i h
    have hnil : b.head = [] := List.length_eq_zero_iff.1 (Nat.le_zero.1 (h ▸ b.length_le))
    rw [hnil, List.lookup_nil]
  · rfl

end Bucket

/-! ## Maps -/

/-- The buckets, one for each hash value. -/
structure HashMap (K V : Type*) {n : ℕ} (hash : K → Fin n) where
  bucket : Fin n → Bucket K V
  hashed : ∀ i, ∀ e ∈ (bucket i).head, hash e.1 = i
  nodup : ∀ i, ((bucket i).head.map Prod.fst).Nodup

namespace HashMap

variable {n : ℕ} {hash : K → Fin n}

def empty : HashMap K V hash where
  bucket _ := .empty
  hashed _ _ h := absurd h List.not_mem_nil
  nodup _ := List.nodup_nil

def find (m : HashMap K V hash) (k : K) : Option V :=
  (m.bucket (hash k)).find k

theorem find_eq (m : HashMap K V hash) (k : K) : m.find k = (m.bucket (hash k)).head.lookup k :=
  Bucket.find_eq ..

/-- Insert a key that is not in the map. -/
def insert (m : HashMap K V hash) (k : K) (v : V) (h : m.find k = none) : HashMap K V hash where
  bucket := Function.update m.bucket (hash k) ((m.bucket (hash k)).insert k v)
  hashed i := by
    by_cases hi : i = hash k
    · subst hi
      rw [Function.update_self]
      exact List.forall_mem_cons.2 ⟨rfl, m.hashed _⟩
    · rw [Function.update_of_ne hi]
      exact m.hashed i
  nodup i := by
    by_cases hi : i = hash k
    · subst hi
      rw [Function.update_self]
      refine List.nodup_cons.2 ⟨fun hmem => ?_, m.nodup _⟩
      obtain ⟨⟨_, v'⟩, he, rfl⟩ := List.mem_map.1 hmem
      rw [find_eq, (lookup_eq_some_iff_mem (m.nodup _)).2 he] at h
      nomatch h
    · rw [Function.update_of_ne hi]
      exact m.nodup i

/-- Remove a key. -/
def erase (m : HashMap K V hash) (k : K) : HashMap K V hash where
  bucket := Function.update m.bucket (hash k) ((m.bucket (hash k)).erase k)
  hashed i := by
    by_cases hi : i = hash k
    · subst hi
      rw [Function.update_self]
      exact fun e he => m.hashed _ e (List.mem_of_mem_eraseP he)
    · rw [Function.update_of_ne hi]
      exact m.hashed i
  nodup i := by
    by_cases hi : i = hash k
    · subst hi
      rw [Function.update_self]
      exact (m.nodup _).sublist (List.eraseP_sublist.map _)
    · rw [Function.update_of_ne hi]
      exact m.nodup i

/-- The nodes of all buckets, bucket after bucket. -/
def entries (m : HashMap K V hash) : List (K × V) :=
  (List.finRange n).flatMap fun i => (m.bucket i).head

/-! ## What the operations do -/

@[simp] theorem find_empty (k : K) : (empty : HashMap K V hash).find k = none :=
  rfl

theorem find_insert (m : HashMap K V hash) (k k' : K) (v : V) (h : m.find k = none) :
    (m.insert k v h).find k' = if k' = k then some v else m.find k' := by
  rw [find_eq, find_eq]
  by_cases hk : k' = k
  · subst hk
    simp [insert, Bucket.insert]
  · rw [if_neg hk]
    by_cases hi : hash k' = hash k
    · simp only [insert, hi, Function.update_self, Bucket.insert, List.lookup_cons,
        beq_false_of_ne hk]
    · simp only [insert, Function.update_of_ne hi]

theorem find_erase (m : HashMap K V hash) (k k' : K) :
    (m.erase k).find k' = if k' = k then none else m.find k' := by
  rw [find_eq, find_eq]
  by_cases hi : hash k' = hash k
  · simp only [erase, hi, Function.update_self, Bucket.erase]
    exact lookup_eraseP (m.nodup _) k k'
  · have hk : k' ≠ k := by
      rintro rfl
      exact hi rfl
    simp only [erase, Function.update_of_ne hi, if_neg hk]

theorem capacity_insert (m : HashMap K V hash) (k : K) (v : V) (h : m.find k = none) (i : Fin n) :
    ((m.insert k v h).bucket i).capacity =
      (m.bucket i).capacity + if i = hash k then 1 else 0 := by
  by_cases hi : i = hash k
  · subst hi
    simp [insert, Bucket.insert]
  · simp [insert, hi]

/-- Capacities are not counted down. -/
theorem capacity_erase (m : HashMap K V hash) (k : K) (i : Fin n) :
    ((m.erase k).bucket i).capacity = (m.bucket i).capacity := by
  by_cases hi : i = hash k
  · subst hi
    simp [erase, Bucket.erase]
  · simp [erase, hi]

theorem mem_entries {m : HashMap K V hash} {k : K} {v : V} :
    (k, v) ∈ m.entries ↔ m.find k = some v := by
  rw [find_eq, lookup_eq_some_iff_mem (m.nodup _), entries, List.mem_flatMap]
  constructor
  · rintro ⟨i, -, he⟩
    exact m.hashed i _ he ▸ he
  · exact fun he => ⟨hash k, List.mem_finRange _, he⟩

omit [DecidableEq K] in
/-- No key is listed twice. -/
theorem nodup_entries (m : HashMap K V hash) : (m.entries.map Prod.fst).Nodup := by
  rw [entries, List.map_flatMap, List.nodup_flatMap]
  refine ⟨fun i _ => m.nodup i, (List.nodup_finRange n).imp fun {i j} hij => ?_⟩
  rw [Function.onFun, List.disjoint_left]
  intro k hki hkj
  obtain ⟨e, he, rfl⟩ := List.mem_map.1 hki
  obtain ⟨e', he', hk⟩ := List.mem_map.1 hkj
  exact hij ((m.hashed i e he).symm.trans (hk ▸ m.hashed j e' he'))

end HashMap

end NetProg
