import Mathlib.Tactic

/-!
# Singly linked lists that grow at the end

The nodes are in the order in which they were allocated, and the address of a node is its
place. A node has its value and the pointer to the next one, and NULL is `none`. `append`
puts a value behind the node that `tail` points to. `toList` follows the pointers from
`head`, and `Holds l xs` says that the list is the chain of `xs`.
-/

namespace NetProg.Lib

/-- The nodes, the first and the last one, and their number. -/
structure SList (α : Type*) where
  nodes : List (α × Option ℕ)
  head : Option ℕ
  tail : Option ℕ
  count : ℤ

namespace SList

variable {α : Type*}

def empty : SList α :=
  ⟨[], none, none, 0⟩

/-- Put a value at the end. It fails when `tail` is NULL and the list is not empty. -/
def append (l : SList α) (x : α) : Option (SList α) :=
  let new := l.nodes.length
  if l.count = 0 then some ⟨l.nodes ++ [(x, none)], some new, some new, l.count + 1⟩
  else
    l.tail.bind fun last => l.nodes[last]?.map fun node =>
      ⟨l.nodes.set last (node.1, some new) ++ [(x, none)], l.head, some new, l.count + 1⟩

/-- The values of at most `n` nodes from an address on. -/
def follow (nodes : List (α × Option ℕ)) : ℕ → Option ℕ → List α
  | 0, _ => []
  | _ + 1, none => []
  | n + 1, some a =>
    match nodes[a]? with
    | none => []
    | some node => node.1 :: follow nodes n node.2

/-- What is linked from `head`. -/
def toList (l : SList α) : List α :=
  follow l.nodes l.nodes.length l.head

/-- The pointer of the node at place `i` of `n`. -/
def link (n i : ℕ) : Option ℕ :=
  if i + 1 < n then some (i + 1) else none

/-- The list is the chain of `xs`. -/
structure Holds (l : SList α) (xs : List α) : Prop where
  node_eq : ∀ i, l.nodes[i]? = xs[i]?.map fun x => (x, link xs.length i)
  head_eq : l.head = if xs = [] then none else some 0
  tail_eq : xs ≠ [] → l.tail = some (xs.length - 1)
  count_eq : l.count = xs.length

theorem holds_empty : (empty : SList α).Holds [] where
  node_eq _ := rfl
  head_eq := rfl
  tail_eq h := absurd rfl h
  count_eq := rfl

variable {l : SList α} {xs : List α}

theorem Holds.length_nodes (h : l.Holds xs) : l.nodes.length = xs.length := by
  have hle : l.nodes.length ≤ xs.length := by
    rw [← List.getElem?_eq_none_iff, h.node_eq, List.getElem?_eq_none le_rfl, Option.map_none]
  have hge : xs.length ≤ l.nodes.length := by
    have hnode := h.node_eq l.nodes.length
    rw [List.getElem?_eq_none le_rfl] at hnode
    exact List.getElem?_eq_none_iff.1 (Option.map_eq_none_iff.1 hnode.symm)
  exact hle.antisymm hge

theorem Holds.append_nil (h : l.Holds []) (x : α) :
    ∃ l', l.append x = some l' ∧ l'.Holds [x] := by
  have hnodes : l.nodes = [] := List.length_eq_zero_iff.1 h.length_nodes
  have hcount : l.count = 0 := h.count_eq
  refine ⟨_, by rw [append, if_pos hcount], ?_, ?_, fun _ => ?_, ?_⟩
  · intro i
    rw [hnodes]
    cases i <;> rfl
  · rw [hnodes]
    rfl
  · rw [hnodes]
    rfl
  · simp [hcount]

/-- The old last node points to the new one. -/
theorem Holds.append_cons (h : l.Holds xs) (hne : xs ≠ []) (x : α) :
    ∃ l', l.append x = some l' ∧ l'.Holds (xs ++ [x]) := by
  have hpos : 0 < xs.length := List.length_pos_iff.2 hne
  have hcount : l.count ≠ 0 := by
    rw [h.count_eq]
    omega
  obtain ⟨y, hy⟩ : ∃ y, xs[xs.length - 1]? = some y :=
    ⟨_, List.getElem?_eq_getElem (by omega)⟩
  have hnode := h.node_eq (xs.length - 1)
  rw [hy, Option.map_some] at hnode
  refine ⟨_, by rw [append, if_neg hcount, h.tail_eq hne, Option.bind_some, hnode, Option.map_some],
    ?_, ?_, fun _ => ?_, ?_⟩
  · intro i
    have hlen := h.length_nodes
    simp only [List.getElem?_append, List.length_set, hlen, List.getElem?_set, h.node_eq,
      List.length_append, List.length_singleton]
    rcases lt_trichotomy (i + 1) xs.length with hlt | heq | hgt
    · rw [if_pos (by omega), if_neg (by omega), if_pos (by omega)]
      simp only [link, if_pos hlt, if_pos (show i + 1 < xs.length + 1 by omega)]
    · obtain rfl : i = xs.length - 1 := by omega
      rw [if_pos (by omega), if_pos rfl, if_pos (by omega), if_pos (by omega), hy]
      simp only [link, Option.map_some, if_pos (show xs.length - 1 + 1 < xs.length + 1 by omega)]
      rw [Nat.sub_add_cancel hpos]
    · rw [if_neg (by omega), if_neg (by omega)]
      rcases Nat.eq_zero_or_pos (i - xs.length) with hzero | hmore
      · simp only [hzero, List.getElem?_cons_zero, Option.map_some, link,
          if_neg (show ¬i + 1 < xs.length + 1 by omega)]
      · rw [List.getElem?_eq_none (show [(x, none)].length ≤ i - xs.length from hmore),
          List.getElem?_eq_none (show [x].length ≤ i - xs.length from hmore)]
        rfl
  · rw [h.head_eq, if_neg hne, if_neg (by simp)]
  · rw [h.length_nodes, List.length_append, List.length_singleton, Nat.add_sub_cancel]
  · rw [h.count_eq, List.length_append, List.length_singleton]
    push_cast
    rfl

theorem Holds.append (h : l.Holds xs) (x : α) :
    ∃ l', l.append x = some l' ∧ l'.Holds (xs ++ [x]) := by
  rcases eq_or_ne xs [] with rfl | hne
  · exact h.append_nil x
  · exact h.append_cons hne x

/-- From place `i` on the pointers lead through the rest of the list. -/
theorem Holds.follow_eq (h : l.Holds xs) {n i : ℕ} (hn : xs.length ≤ n + i) :
    follow l.nodes n (if i < xs.length then some i else none) = xs.drop i := by
  induction n generalizing i with
  | zero => rw [List.drop_eq_nil_of_le (by omega), follow]
  | succ n ih =>
    by_cases hi : i < xs.length
    · have hnode := h.node_eq i
      rw [List.getElem?_eq_getElem hi, Option.map_some] at hnode
      rw [if_pos hi, follow, hnode]
      simp only [link]
      rw [ih (by omega), ← List.drop_eq_getElem_cons hi]
    · rw [if_neg hi, follow, List.drop_eq_nil_of_le (by omega)]

/-- What is linked from the head is what the list holds. -/
theorem Holds.toList_eq (h : l.Holds xs) : l.toList = xs := by
  have hhead : l.head = if 0 < xs.length then some 0 else none := by
    rw [h.head_eq]
    cases xs <;> simp
  rw [toList, hhead, h.length_nodes]
  exact h.follow_eq le_rfl

end SList

end NetProg.Lib
