import Mathlib.Tactic

/-!
# A heap block of cells

An array on the heap has a size in bytes and cells of `w` bytes. `realloc` keeps what fits
into the new size. `store` writes a cell, and outside the block it changes no cell. Each
access is logged with the size that the block has at that time, so that `InBounds` says
afterwards whether all of them were inside.
-/

namespace NetProg.Lib

/-- A block, with the log of the accesses to it. -/
structure Block (α : Type*) where
  bytes : ℕ
  cell : ℕ → Option α
  accesses : List (ℕ × ℕ)

namespace Block

variable {α : Type*} (w : ℕ)

/-- `calloc(count, w)`. -/
def calloc (count : ℕ) : Block α :=
  ⟨w * count, fun _ => none, []⟩

/-- `realloc(b, bytes)`. -/
def realloc (b : Block α) (bytes : ℕ) : Block α :=
  { b with
    bytes := bytes
    cell := fun i => if w * (i + 1) ≤ bytes then b.cell i else none }

/-- `b[i] = v`. -/
def store (b : Block α) (i : ℕ) (v : α) : Block α :=
  { b with
    cell := if w * (i + 1) ≤ b.bytes then Function.update b.cell i (some v) else b.cell
    accesses := (i, b.bytes) :: b.accesses }

/-- Every access was inside the block. -/
def InBounds (b : Block α) : Prop :=
  ∀ a ∈ b.accesses, w * (a.1 + 1) ≤ a.2

/-- The first `n` cells. -/
def take (b : Block α) (n : ℕ) : List (Option α) :=
  (List.range n).map b.cell

variable {w} {b : Block α} {n : ℕ} {v : α}

theorem inBounds_calloc (count : ℕ) : (calloc w count : Block α).InBounds w :=
  List.forall_mem_nil _

theorem InBounds.store (h : b.InBounds w) {i : ℕ} (hi : w * (i + 1) ≤ b.bytes) (v : α) :
    (b.store w i v).InBounds w :=
  List.forall_mem_cons.2 ⟨hi, h⟩

/-- A store behind the first `n` cells appends to them. -/
theorem take_store (hn : w * (n + 1) ≤ b.bytes) (v : α) :
    (b.store w n v).take (n + 1) = b.take n ++ [some v] := by
  have hcell : (b.store w n v).cell = Function.update b.cell n (some v) := if_pos hn
  rw [take, take, hcell, List.range_succ, List.map_append, List.map_singleton,
    Function.update_self]
  congr 1
  refine List.map_congr_left fun i hi => Function.update_of_ne ?_ ..
  exact (List.mem_range.1 hi).ne

end Block

end NetProg.Lib
