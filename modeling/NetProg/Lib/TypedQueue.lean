import Mathlib.Tactic

/-!
# Queues that are read by type

The messages on a queue have types, and a receiver takes the first message of the type that
it asks for, wherever it is in the queue. A queue is a list, the oldest message first, and
`key` is the type of a message.
-/

namespace NetProg.Lib

variable {α κ : Type*} [DecidableEq κ]

/-- The first message of type `k`, and the queue without it. -/
def receive (key : α → κ) (q : List α) (k : κ) : Option (α × List α) :=
  (q.find? fun x => key x = k).map fun x => (x, q.eraseP fun y => key y = k)

variable {key : α → κ} {q rest : List α} {k : κ} {x : α}

theorem mem_of_receive (h : receive key q k = some (x, rest)) : x ∈ q := by
  obtain ⟨y, hy, heq⟩ := Option.map_eq_some_iff.1 h
  obtain ⟨rfl, -⟩ := Prod.mk.inj heq
  exact List.mem_of_find?_eq_some hy

theorem key_of_receive (h : receive key q k = some (x, rest)) : key x = k := by
  obtain ⟨y, hy, heq⟩ := Option.map_eq_some_iff.1 h
  obtain ⟨rfl, -⟩ := Prod.mk.inj heq
  simpa using List.find?_some hy

/-- What stays was there. -/
theorem subset_of_receive (h : receive key q k = some (x, rest)) : rest ⊆ q := by
  obtain ⟨y, hy, heq⟩ := Option.map_eq_some_iff.1 h
  obtain ⟨-, rfl⟩ := Prod.mk.inj heq
  exact List.eraseP_subset

/-- What is taken stands behind messages of other types. -/
theorem exists_of_receive (h : receive key q k = some (x, rest)) :
    ∃ l₁ l₂, q = l₁ ++ x :: l₂ ∧ rest = l₁ ++ l₂ ∧ key x = k ∧ ∀ y ∈ l₁, key y ≠ k := by
  have hkey := key_of_receive h
  obtain ⟨y, hy, heq⟩ := Option.map_eq_some_iff.1 h
  obtain ⟨rfl, rfl⟩ := Prod.mk.inj heq
  obtain ⟨-, l₁, l₂, rfl, hl₁⟩ := List.find?_eq_some_iff_append.1 hy
  have hne : ∀ z ∈ l₁, key z ≠ k := fun z hz => by simpa using hl₁ z hz
  refine ⟨l₁, l₂, rfl, ?_, hkey, hne⟩
  rw [List.eraseP_append_right _ fun z hz => by simpa using hne z hz,
    List.eraseP_cons_of_pos (by simpa using hkey)]

/-! ## What one reader sees of a queue -/

section View

variable {β : Type*} {f : α → Option β}

/-- A message that `f` does not see is taken. -/
theorem filterMap_of_receive_none (h : receive key q k = some (x, rest)) (hf : f x = none) :
    rest.filterMap f = q.filterMap f := by
  obtain ⟨l₁, l₂, rfl, rfl, -⟩ := exists_of_receive h
  simp [List.filterMap_append, List.filterMap_cons_none hf]

/-- If all that `f` sees has the type that is asked for, what is taken is the first of it. -/
theorem filterMap_of_receive (h : receive key q k = some (x, rest))
    (hf : ∀ y ∈ q, (f y).isSome → key y = k) :
    q.filterMap f = (f x).toList ++ rest.filterMap f := by
  obtain ⟨l₁, l₂, rfl, rfl, -, hne⟩ := exists_of_receive h
  have hl₁ : l₁.filterMap f = [] := by
    refine List.filterMap_eq_nil_iff.2 fun y hy => ?_
    by_contra hsome
    exact hne y hy (hf y (List.mem_append_left _ hy) (Option.isSome_iff_ne_none.2 hsome))
  rw [List.filterMap_append, List.filterMap_append, hl₁]
  cases hx : f x <;> simp [hx]

theorem perm_of_receive (h : receive key q k = some (x, rest)) : q.Perm (x :: rest) := by
  obtain ⟨l₁, l₂, rfl, rfl, -⟩ := exists_of_receive h
  exact List.perm_middle

end View

end NetProg.Lib
