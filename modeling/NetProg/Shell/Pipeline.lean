import Mathlib.Tactic

/-!
# Pipelines of the shell

A pipeline is a sequence of blocks : one command behind `|`, two alternatives behind `||`,
three behind `|||`. In the list of commands an alternative is known by `par_offset` and by
the number of bars in front of its block. `start` and `last` are the first and the last
position of the block that a position is in.
-/

namespace NetProg.Shell

/-- `pipe_count`. It is also the kind of a block. -/
inductive PipeCount where
  | single
  | double
  | triple
deriving DecidableEq, Repr

/-- The fields of `command` that the wiring depends on. -/
structure Command where
  parOffset : ℤ
  prevPipeCount : PipeCount
deriving DecidableEq, Repr

namespace PipeCount

/-- The number of commands of a block. -/
def size : PipeCount → ℕ
  | single => 1
  | double => 2
  | triple => 3

/-- The command at an offset in a block. -/
def command : PipeCount → ℕ → Command
  | single, _ => ⟨0, single⟩
  | k, d => ⟨-(d + 1), k⟩

theorem size_pos (k : PipeCount) : 0 < k.size := by
  cases k <;> decide

end PipeCount

/-- The commands of a sequence of blocks. -/
def commands (bs : List PipeCount) : List Command :=
  bs.flatMap fun k => (List.range k.size).map k.command

/-- Where the block of a position starts, and its kind. -/
def blockOf : List PipeCount → ℕ → ℕ × PipeCount
  | [], _ => (0, .single)
  | k :: bs, i =>
    if i < k.size then (0, k) else ((blockOf bs (i - k.size)).1 + k.size, (blockOf bs (i - k.size)).2)

/-- The first position of the block of `i`. -/
def start (bs : List PipeCount) (i : ℕ) : ℕ :=
  (blockOf bs i).1

/-- The last position of the block of `i`. -/
def last (bs : List PipeCount) (i : ℕ) : ℕ :=
  (blockOf bs i).1 + (blockOf bs i).2.size - 1

variable {bs : List PipeCount} {i j : ℕ}

theorem length_commands_cons (k : PipeCount) (bs : List PipeCount) :
    (commands (k :: bs)).length = k.size + (commands bs).length := by
  simp [commands]

/-- The block of a position is in the pipeline, has the position in it and the command at it. -/
theorem blockOf_spec (hi : i < (commands bs).length) :
    (blockOf bs i).1 ≤ i ∧ i < (blockOf bs i).1 + (blockOf bs i).2.size ∧
      (blockOf bs i).1 + (blockOf bs i).2.size ≤ (commands bs).length ∧
      (commands bs)[i]? = some ((blockOf bs i).2.command (i - (blockOf bs i).1)) := by
  induction bs generalizing i with
  | nil => simp [commands] at hi
  | cons k bs ih =>
    have hlen := length_commands_cons k bs
    have hcons : commands (k :: bs) = (List.range k.size).map k.command ++ commands bs := rfl
    unfold blockOf
    by_cases hlt : i < k.size
    · rw [if_pos hlt, hcons, List.getElem?_append_left (by simpa using hlt)]
      refine ⟨Nat.zero_le i, by simpa using hlt, by simp, ?_⟩
      simp [hlt]
    · rw [if_neg hlt, hcons, List.getElem?_append_right (by simpa using hlt)]
      obtain ⟨h₁, h₂, h₃, h₄⟩ := ih (i := i - k.size) (by omega)
      simp only [List.length_map, List.length_range, List.length_append]
      refine ⟨by omega, by omega, by omega, ?_⟩
      rw [h₄]
      congr 2
      omega

/-- All positions of a block have the same block. -/
theorem blockOf_eq (hi : i < (commands bs).length) (hle : start bs i ≤ j) (hlt : j ≤ last bs i) :
    blockOf bs j = blockOf bs i := by
  unfold start last at *
  induction bs generalizing i j with
  | nil => simp [commands] at hi
  | cons k bs ih =>
    have hlen := length_commands_cons k bs
    unfold blockOf at hle hlt ⊢
    have hsize := k.size_pos
    by_cases hik : i < k.size
    · rw [if_pos hik] at hle hlt ⊢
      rw [if_pos (by simp only at hlt; omega)]
    · rw [if_neg hik] at hle hlt ⊢
      have hi' : i - k.size < (commands bs).length := by omega
      have hpos := (blockOf bs (i - k.size)).2.size_pos
      simp only at hle hlt
      rw [if_neg (by omega), ih hi' (by omega) (by omega)]

section Position

variable (hi : i < (commands bs).length)

include hi

theorem start_le : start bs i ≤ i :=
  (blockOf_spec hi).1

theorem le_last : i ≤ last bs i := by
  have := (blockOf_spec hi).2.1
  unfold last
  omega

theorem last_lt : last bs i < (commands bs).length := by
  have := (blockOf_spec hi).2.2.1
  have := (blockOf bs i).2.size_pos
  unfold last
  omega

theorem start_eq (hle : start bs i ≤ j) (hlt : j ≤ last bs i) : start bs j = start bs i := by
  unfold start
  rw [blockOf_eq hi hle hlt]

theorem last_eq (hle : start bs i ≤ j) (hlt : j ≤ last bs i) : last bs j = last bs i := by
  unfold last
  rw [blockOf_eq hi hle hlt]

/-- The other positions are followed by one of the same block. -/
theorem start_succ_of_ne (hne : last bs i ≠ i) : start bs (i + 1) = start bs i := by
  have := le_last hi
  exact start_eq hi (by have := start_le hi; omega) (by omega)

end Position

/-- Behind the last position of a block, a block starts. -/
theorem start_succ_of_last (hlast : last bs i = i) (hi' : i + 1 < (commands bs).length) :
    start bs (i + 1) = i + 1 := by
  by_contra hne
  have hle := start_le hi'
  have heq := last_eq hi' (j := i) (by omega) (by have := le_last hi'; omega)
  have := le_last hi'
  omega

end NetProg.Shell
