import NetProg.Lib.Run
import NetProg.Rtt.Queue

/-!
# The order of the job queue

`sendQ` is meant as a queue of jobs, but `qPush` puts its element in front of the one that
`qFront` and `qPop` take. The elements are numbered in the order of the pushes, so that
their age does not depend on where they stand. `fifo_iff` says in which runs the queue
serves the oldest element.
-/

namespace NetProg.Rtt

variable {α : Type*}

/-- A call of a function of `queue.c`. -/
inductive Call (α : Type*) where
  | qPush (data : α)
  | qFront
  | qPop

/-- A queue with the numbers of its elements, and the number of the next one. -/
structure Numbered (α : Type*) where
  queue : Queue (ℕ × α)
  next : ℕ

def Numbered.start : Numbered α :=
  ⟨Queue.initQueue, 0⟩

/-- What a call does to the queue. -/
def serve (s : Numbered α) : Call α → Option (Numbered α)
  | .qPush data => some ⟨s.queue.qPush (s.next, data), s.next + 1⟩
  | .qFront => some s
  | .qPop => some ⟨s.queue.qPop, s.next⟩

/-- The oldest element pushed and not yet popped. -/
def Numbered.oldest (s : Numbered α) : Option (ℕ × α) :=
  s.queue.elems.argmin Prod.fst

/-- The elements without the oldest one. -/
def Numbered.withoutOldest (s : Numbered α) : List (ℕ × α) :=
  s.queue.elems.filter fun e => s.oldest.map Prod.fst ≠ some e.1

/-- The call serves the oldest element : `qFront` returns its data, or NULL when there is
none, `qPop` removes it and no other, and `count` is the number of elements after each. -/
def ServesOldest (s : Numbered α) : Call α → Prop
  | .qPush data => (s.queue.qPush (s.next, data)).count = s.queue.elems.length + 1
  | .qFront => s.queue.qFront.map Prod.snd = s.oldest.map Prod.snd
  | .qPop => s.queue.qPop.elems = s.withoutOldest ∧ s.queue.qPop.count = s.withoutOldest.length

/-- At `qFront` the newest element has the data of the oldest one, and at `qPop` there is at
most one element. -/
def OneAtATime (s : Numbered α) : Call α → Prop
  | .qPush _ => True
  | .qFront => s.queue.elems.head?.map Prod.snd = s.queue.elems.getLast?.map Prod.snd
  | .qPop => s.queue.elems.length ≤ 1

/-! ## The age of the elements -/

/-- The numbers decrease from the front on. -/
structure Ordered (s : Numbered α) : Prop where
  lt : ∀ e ∈ s.queue.elems, e.1 < s.next
  decreasing : s.queue.elems.Pairwise fun e f => f.1 < e.1

theorem ordered_start : Ordered (Numbered.start : Numbered α) where
  lt := List.forall_mem_nil _
  decreasing := .nil

theorem ordered_step (s : Numbered α) (c : Call α) (s' : Numbered α) (h : Ordered s)
    (hstep : serve s c = some s') : Ordered s' := by
  obtain ⟨hlt, hdec⟩ := h
  cases c with
  | qPush data =>
    obtain rfl := Option.some.inj hstep
    refine ⟨List.forall_mem_cons.2 ⟨Nat.lt_succ_self _, fun e he => ?_⟩, ?_⟩
    · exact (hlt e he).trans (Nat.lt_succ_self _)
    · exact List.pairwise_cons.2 ⟨hlt, hdec⟩
  | qFront =>
    obtain rfl := Option.some.inj hstep
    exact ⟨hlt, hdec⟩
  | qPop =>
    obtain rfl := Option.some.inj hstep
    refine ⟨fun e he => hlt e ?_, ?_⟩
    · rw [Queue.elems_qPop] at he
      exact List.mem_of_mem_tail he
    · rw [Queue.elems_qPop]
      exact hdec.sublist (List.tail_sublist _)

/-- The oldest element is the one at the end of the chain. -/
theorem oldest_eq {s : Numbered α} (h : Ordered s) : s.oldest = s.queue.elems.getLast? := by
  have hdec := h.decreasing
  unfold Numbered.oldest
  generalize s.queue.elems = l at hdec
  induction l using List.reverseRecOn with
  | nil => rfl
  | append_singleton l e ih =>
    obtain ⟨-, -, hlast⟩ := List.pairwise_append.1 hdec
    rw [List.argmin_concat, List.getLast?_concat]
    cases hmin : l.argmin Prod.fst with
    | none => rfl
    | some c => exact if_pos (hlast c (List.argmin_mem hmin) e (List.mem_singleton_self e))

theorem withoutOldest_eq {s : Numbered α} (h : Ordered s) :
    s.withoutOldest = s.queue.elems.dropLast := by
  have hdec := h.decreasing
  rw [Numbered.withoutOldest, oldest_eq h]
  generalize s.queue.elems = l at hdec
  cases l using List.reverseRecOn with
  | nil => rfl
  | append_singleton l e =>
    obtain ⟨-, -, hlast⟩ := List.pairwise_append.1 hdec
    have hkeep : ∀ f ∈ l, e.1 ≠ f.1 := fun f hf =>
      (hlast f hf e (List.mem_singleton_self e)).ne
    rw [List.dropLast_concat, List.getLast?_concat, List.filter_append]
    simpa using fun n d hf => hkeep (n, d) hf

/-- Removing the first element removes the last one only if it is the only one. -/
theorem tail_eq_dropLast_iff {β : Type*} {l : List β} (hl : l.Nodup) :
    l.tail = l.dropLast ↔ l.length ≤ 1 := by
  cases l with
  | nil => simp
  | cons b l =>
    cases l using List.reverseRecOn with
    | nil => simp
    | append_singleton l e =>
      refine iff_of_false (fun h => ?_) (by simp)
      rw [List.tail_cons, ← List.cons_append, List.dropLast_concat] at h
      have he : e ∈ b :: l := h ▸ List.mem_append_right l (List.mem_singleton_self e)
      exact List.disjoint_of_nodup_append (List.cons_append ▸ hl) he (List.mem_singleton_self e)

theorem Ordered.nodup {s : Numbered α} (h : Ordered s) : s.queue.elems.Nodup :=
  h.decreasing.imp fun hlt heq => absurd (congrArg Prod.fst heq) hlt.ne'

theorem servesOldest_iff {s : Numbered α} (h : Ordered s) (c : Call α) :
    ServesOldest s c ↔ OneAtATime s c := by
  cases c with
  | qPush data => exact iff_of_true ((s.queue.qPush _).count_eq) trivial
  | qFront =>
    unfold ServesOldest OneAtATime
    rw [Queue.qFront_eq, oldest_eq h]
  | qPop =>
    unfold ServesOldest OneAtATime
    rw [← tail_eq_dropLast_iff h.nodup, ← withoutOldest_eq h, Queue.elems_qPop]
    refine and_iff_left_of_imp fun heq => ?_
    rw [Queue.count_eq, Queue.elems_qPop, heq]

/-! ## Runs -/

theorem isSome_run_serve (s : Numbered α) (calls : List (Call α)) :
    (run serve s calls).isSome := by
  induction calls generalizing s with
  | nil => rfl
  | cons c calls ih => cases c <;> exact ih _

/-- For every sequence of calls, each call serves the oldest element if and only if at each
`qFront` the newest element has the data of the oldest one, and at each `qPop` there is at
most one element. -/
theorem fifo_iff (calls : List (Call α)) :
    StepsMeet serve ServesOldest Numbered.start calls ↔
      StepsMeet serve OneAtATime (Numbered.start : Numbered α) calls :=
  stepsMeet_congr ordered_step (fun _ c _ h _ => servesOldest_iff h c) ordered_start
    (isSome_run_serve _ calls)

/-- Two elements are pushed, and the front is the second one. -/
theorem not_fifo_two :
    ¬StepsMeet serve ServesOldest Numbered.start [.qPush 1, .qPush 2, .qFront] := by
  intro h
  have hfront : some 2 = some 1 := ((h.2 _ rfl).2 _ rfl).1
  exact absurd hfront (by decide)

end NetProg.Rtt
