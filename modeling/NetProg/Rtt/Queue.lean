import Mathlib.Tactic

/-!
# The job queue

`queue.c` keeps the elements in a chain : `front` leads to the element pushed last, and
`prev` of each element to the one pushed before it. `Queue` carries the fact that `count`
is the length of the chain, so `qFront` and `qPop`, which test `count` and then follow
`front`, never follow NULL. Allocation succeeds.
-/

namespace NetProg.Rtt

/-- `queue` : the chain from `front`, and the number of its elements. -/
structure Queue (α : Type*) where
  elems : List α
  count : ℕ
  count_eq : count = elems.length

namespace Queue

variable {α : Type*}

def initQueue : Queue α :=
  ⟨[], 0, rfl⟩

/-- `qFront`. NULL is `none`. -/
def qFront (q : Queue α) : Option α :=
  if q.count = 0 then none else q.elems.head?

def qPop (q : Queue α) : Queue α :=
  if q.count = 0 then q
  else ⟨q.elems.tail, q.count - 1, by rw [q.count_eq, List.length_tail]⟩

def qPush (q : Queue α) (data : α) : Queue α :=
  ⟨data :: q.elems, q.count + 1, by rw [q.count_eq, List.length_cons]⟩

@[simp] theorem elems_qPush (q : Queue α) (data : α) : (q.qPush data).elems = data :: q.elems :=
  rfl

@[simp] theorem elems_qPop (q : Queue α) : q.qPop.elems = q.elems.tail := by
  unfold qPop
  split
  · rename_i h
    have hnil : q.elems = [] := List.length_eq_zero_iff.1 (q.count_eq.symm.trans h)
    rw [hnil, List.tail_nil]
  · rfl

theorem qFront_eq (q : Queue α) : q.qFront = q.elems.head? := by
  unfold qFront
  split
  · rename_i h
    have hnil : q.elems = [] := List.length_eq_zero_iff.1 (q.count_eq.symm.trans h)
    rw [hnil, List.head?_nil]
  · rfl

/-- What a non-empty queue is made of. -/
theorem elems_of_qFront {q : Queue α} {a : α} (h : q.qFront = some a) :
    q.elems = a :: q.elems.tail := by
  rw [qFront_eq] at h
  exact (List.cons_head?_tail h).symm

end Queue

end NetProg.Rtt
