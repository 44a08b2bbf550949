import NetProg.Lib.Stop

/-!
# Objects on a heap, and the pointers to them

A heap has an object at each address that is allocated. An allocator picks an address that is not,
or finds none, and what is freed can be picked again. Reading, writing and freeing at an address
that is not allocated is a fault.

A table of pointers owns its objects if every pointer in it leads to an object and no two keys have
the same one (`Owns`). Then the table can be seen as a table of the objects themselves (`view`), and
each step on the heap and the table is one on the view.
-/

namespace NetProg.Lib

/-- The objects by their addresses. -/
abbrev Objects (α : Type*) :=
  ℕ → Option α

/-- A choice of an address that is not allocated. -/
structure Allocator (α : Type*) where
  fresh : Objects α → Option ℕ
  unused : ∀ {h p}, fresh h = some p → h p = none

namespace Objects

variable {α κ : Type*}

/-- Finitely many objects are allocated. -/
def Finite (h : Objects α) : Prop :=
  {p | h p ≠ none}.Finite

def alloc (a : Allocator α) (h : Objects α) (v : α) : Except Stop (ℕ × Objects α) :=
  (Stop.check (a.fresh h)).map fun p => (p, Function.update h p (some v))

def store (h : Objects α) (p : ℕ) (v : α) : Except Stop (Objects α) :=
  (Stop.deref (h p)).map fun _ => Function.update h p (some v)

def free (h : Objects α) (p : ℕ) : Except Stop (Objects α) :=
  (Stop.deref (h p)).map fun _ => Function.update h p none

/-- The objects that a table of pointers leads to. -/
def view (h : Objects α) (m : κ → Option ℕ) (k : κ) : Option α :=
  (m k).bind h

/-- Every pointer of the table leads to an object of its own. -/
structure Owns (h : Objects α) (m : κ → Option ℕ) : Prop where
  live : ∀ {k p}, m k = some p → h p ≠ none
  inj : ∀ {k k' p}, m k = some p → m k' = some p → k = k'

/-- The pointer to the object `v`, which the table does not have. -/
structure Loose (h : Objects α) (m : κ → Option ℕ) (p : ℕ) (v : α) : Prop where
  at_eq : h p = some v
  notMem : ∀ k, m k ≠ some p

variable {h : Objects α} {m m' : κ → Option ℕ} {k : κ} {p q : ℕ} {v w : α}

theorem finite_empty : Finite fun _ => (none : Option α) := by
  simp [Finite]

theorem Finite.update (hf : h.Finite) (p : ℕ) (c : Option α) : Finite (Function.update h p c) := by
  refine (hf.insert p).subset fun q hq => ?_
  by_cases hqp : q = p
  · exact .inl hqp
  · refine .inr ?_
    rwa [Set.mem_ofPred_eq, Function.update_of_ne hqp] at hq

theorem Finite.exists_unused (hf : h.Finite) : ∃ p, h p = none := by
  obtain ⟨p, hp⟩ := hf.exists_notMem
  exact ⟨p, by simpa using hp⟩

theorem owns_empty (h : Objects α) : h.Owns fun _ : κ => none where
  live hk := by cases hk
  inj hk := by cases hk

theorem Owns.notMem_of_none (ho : h.Owns m) (hp : h p = none) : ∀ k, m k ≠ some p :=
  fun _ hk => ho.live hk hp

/-! ## Changing an object that the table does not have -/

theorem Owns.update (ho : h.Owns m) (hp : ∀ k, m k ≠ some p) (c : Option α) :
    Owns (Function.update h p c) m where
  live {k q} hk := by
    have hqp : q ≠ p := by
      rintro rfl
      exact hp k hk
    rw [Function.update_of_ne hqp]
    exact ho.live hk
  inj := ho.inj

theorem view_update (hp : ∀ k, m k ≠ some p) (c : Option α) :
    view (Function.update h p c) m = view h m := by
  funext k
  unfold view
  cases hk : m k with
  | none => rfl
  | some q =>
    have hqp : q ≠ p := by
      rintro rfl
      exact hp k hk
    exact Function.update_of_ne hqp ..

theorem Loose.update (hl : h.Loose m q w) (hqp : q ≠ p) (c : Option α) :
    Loose (Function.update h p c) m q w where
  at_eq := by rw [Function.update_of_ne hqp]; exact hl.at_eq
  notMem := hl.notMem

/-! ## Changing the table -/

variable [DecidableEq κ]

/-- A key gets a pointer that the table does not have. -/
theorem Owns.insert (ho : h.Owns m) (hl : h.Loose m p v)
    (hm' : ∀ k', m' k' = if k' = k then some p else m k') : h.Owns m' where
  live {k' q} hq := by
    rw [hm'] at hq
    split at hq
    · obtain rfl := Option.some.inj hq
      rw [hl.at_eq]
      exact Option.some_ne_none v
    · exact ho.live hq
  inj {k₁ k₂ q} h₁ h₂ := by
    rw [hm'] at h₁ h₂
    split at h₁
    · obtain rfl := Option.some.inj h₁
      split at h₂
      · rename_i heq₁ heq₂
        rw [heq₁, heq₂]
      · exact absurd h₂ (hl.notMem k₂)
    · split at h₂
      · obtain rfl := Option.some.inj h₂
        exact absurd h₁ (hl.notMem k₁)
      · exact ho.inj h₁ h₂

theorem view_insert (hl : h.Loose m p v) (hm' : ∀ k', m' k' = if k' = k then some p else m k')
    (k' : κ) : view h m' k' = if k' = k then some v else view h m k' := by
  unfold view
  rw [hm']
  split
  · exact hl.at_eq
  · rfl

theorem Loose.insert (hl : h.Loose m q w) (hqp : q ≠ p)
    (hm' : ∀ k', m' k' = if k' = k then some p else m k') : h.Loose m' q w where
  at_eq := hl.at_eq
  notMem k' := by
    rw [hm']
    split
    · rw [ne_eq, Option.some.injEq]
      exact hqp.symm
    · exact hl.notMem k'

/-- A key loses its pointer. The object stays. -/
theorem Owns.erase (ho : h.Owns m) (hm' : ∀ k', m' k' = if k' = k then none else m k') :
    h.Owns m' where
  live {k' q} hq := by
    rw [hm'] at hq
    split at hq
    · cases hq
    · exact ho.live hq
  inj {k₁ k₂ q} h₁ h₂ := by
    rw [hm'] at h₁ h₂
    split at h₁
    · cases h₁
    · split at h₂
      · cases h₂
      · exact ho.inj h₁ h₂

theorem view_erase (hm' : ∀ k', m' k' = if k' = k then none else m k') (k' : κ) :
    view h m' k' = if k' = k then none else view h m k' := by
  unfold view
  rw [hm']
  split
  · rfl
  · rfl

theorem Loose.erase (hl : h.Loose m q w) (hm' : ∀ k', m' k' = if k' = k then none else m k') :
    h.Loose m' q w where
  at_eq := hl.at_eq
  notMem k' := by
    rw [hm']
    split
    · exact Option.some_ne_none q |>.symm
    · exact hl.notMem k'

/-- The pointer that was erased is no longer in the table. -/
theorem Owns.notMem_erased (ho : h.Owns m) (hk : m k = some p)
    (hm' : ∀ k', m' k' = if k' = k then none else m k') (k' : κ) : m' k' ≠ some p := by
  rw [hm']
  split
  · exact Option.some_ne_none p |>.symm
  · rename_i hne
    exact fun hk' => hne (ho.inj hk' hk)

end Objects

/-! ## Allocators -/

namespace Allocator

variable {α : Type*}

/-- The allocator can fail while finitely many objects are allocated. -/
def Short (a : Allocator α) : Prop :=
  ∃ h, Objects.Finite h ∧ a.fresh h = none

/-- The first address that is not allocated. -/
noncomputable def first : Allocator α where
  fresh h := open Classical in if hex : ∃ p, h p = none then some (Nat.find hex) else none
  unused {h p} hp := by
    split at hp
    · rename_i hex
      rw [← Option.some.inj hp]
      exact Nat.find_spec hex
    · cases hp

theorem not_short_first : ¬(first : Allocator α).Short := by
  rintro ⟨h, hf, hnone⟩
  simp [first, hf.exists_unused] at hnone

end Allocator

end NetProg.Lib
