import Mathlib.Tactic

/-!
# Doubly linked lists in a heap

A heap maps addresses to nodes. A node has its data and the pointers `next` and `prev`,
and NULL is `none`. Every access goes through `Heap.load` or `Heap.modify`, which fail on
NULL and on an address that was never allocated or was freed : a program over the heap
that returns a value made no such access.

`DSeg h prev l nxt` says that the nodes listed in `l` (address and data, in order) lie in
the heap linked both ways, between the pointers `prev` and `nxt`. `dseg_append` cuts a
segment at any place, so that an edit changes one link and `DSeg.congr` keeps the rest.
`DList h head l` is a whole list. The results are the four edits (`DList.pushFront`,
`DList.pushBack`, `DList.remove`, `DList.setData`) and the search from the head
(`DList.search_eq`), which ends because a list is never longer than the heap.
-/

namespace NetProg

/-- A node of a doubly linked list. -/
structure Node (α : Type*) where
  data : α
  next : Option ℕ
  prev : Option ℕ
deriving DecidableEq, Repr

/-- A heap of nodes. No address from `bound` on is allocated. -/
structure Heap (α : Type*) where
  cells : ℕ → Option (Node α)
  bound : ℕ
  cells_of_bound_le : ∀ a, bound ≤ a → cells a = none

namespace Heap

variable {α : Type*}

/-- The heap with nothing allocated. -/
def empty : Heap α :=
  ⟨fun _ => none, 0, fun _ _ => rfl⟩

/-- Put a node at an address. -/
def write (h : Heap α) (a : ℕ) (n : Node α) : Heap α where
  cells := Function.update h.cells a (some n)
  bound := max h.bound (a + 1)
  cells_of_bound_le b hb := by
    rw [Function.update_of_ne (by omega)]
    exact h.cells_of_bound_le b (by omega)

/-- Take an address out of the heap. -/
def erase (h : Heap α) (a : ℕ) : Heap α where
  cells := Function.update h.cells a none
  bound := h.bound
  cells_of_bound_le b hb := by
    rcases eq_or_ne b a with rfl | hne
    · exact Function.update_self ..
    · rw [Function.update_of_ne hne]
      exact h.cells_of_bound_le b hb

@[simp] theorem cells_write (h : Heap α) (a : ℕ) (n : Node α) :
    (h.write a n).cells = Function.update h.cells a (some n) :=
  rfl

@[simp] theorem cells_erase (h : Heap α) (a : ℕ) :
    (h.erase a).cells = Function.update h.cells a none :=
  rfl

/-- Read through a pointer. -/
def load (h : Heap α) (p : Option ℕ) : Option (Node α) :=
  p.bind h.cells

/-- Change the node a pointer leads to. -/
def modify (h : Heap α) : Option ℕ → (Node α → Node α) → Option (Heap α)
  | none, _ => none
  | some a, f => (h.cells a).map fun n => h.write a (f n)

/-- The allocator returns the block `a`, which is not in use, filled with `n`. -/
def alloc (h : Heap α) (a : ℕ) (n : Node α) : Option (Heap α) :=
  if (h.cells a).isNone then some (h.write a n) else none

/-- Give a block back. Freeing a block that is not in use fails. -/
def free (h : Heap α) : Option ℕ → Option (Heap α)
  | none => none
  | some a => (h.cells a).map fun _ => h.erase a

@[simp] theorem load_some (h : Heap α) (a : ℕ) : h.load (some a) = h.cells a :=
  rfl

@[simp] theorem load_none (h : Heap α) : h.load none = none :=
  rfl

@[simp] theorem modify_none (h : Heap α) (f : Node α → Node α) : h.modify none f = none :=
  rfl

theorem modify_some {h : Heap α} {a : ℕ} {n : Node α} (ha : h.cells a = some n)
    (f : Node α → Node α) : h.modify (some a) f = some (h.write a (f n)) := by
  simp [modify, ha]

theorem alloc_of_none {h : Heap α} {a : ℕ} (ha : h.cells a = none) (n : Node α) :
    h.alloc a n = some (h.write a n) := by
  simp [alloc, ha]

theorem free_some {h : Heap α} {a : ℕ} {n : Node α} (ha : h.cells a = some n) :
    h.free (some a) = some (h.erase a) := by
  simp [free, ha]

theorem lt_bound {h : Heap α} {a : ℕ} {n : Node α} (ha : h.cells a = some n) : a < h.bound := by
  by_contra hlt
  rw [h.cells_of_bound_le a (by omega)] at ha
  cases ha

/-- Changing a node allocates nothing. -/
theorem cells_eq_none_of_modify {h h' : Heap α} {p : Option ℕ} {f : Node α → Node α} {b : ℕ}
    (hm : h.modify p f = some h') (hb : h.cells b = none) : h'.cells b = none := by
  cases p with
  | none => cases hm
  | some a =>
    obtain ⟨n, hn, rfl⟩ := Option.map_eq_some_iff.1 hm
    have hne : b ≠ a := by
      rintro rfl
      rw [hb] at hn
      cases hn
    rwa [cells_write, Function.update_of_ne hne]

/-- Follow `next` from a pointer to the first node whose data satisfies `q`. NULL if there
is none. Fails on an invalid access and when `fuel` nodes did not suffice. -/
def search (h : Heap α) (q : α → Bool) : ℕ → Option ℕ → Option (Option ℕ)
  | _, none => some none
  | 0, some _ => none
  | fuel + 1, some a =>
    match h.cells a with
    | none => none
    | some n => if q n.data then some (some a) else h.search q fuel n.next

/-- Follow `next` from a pointer to NULL and read every node on the way. -/
def toList (h : Heap α) : ℕ → Option ℕ → Option (List α)
  | _, none => some []
  | 0, some _ => none
  | fuel + 1, some a =>
    match h.cells a with
    | none => none
    | some n => (h.toList fuel n.next).map (n.data :: ·)

end Heap

variable {α : Type*}

/-! ## Segments -/

/-- The pointer to the first node of `l`, or `nxt` if `l` is empty. -/
def firstPtr : List (ℕ × α) → Option ℕ → Option ℕ
  | [], nxt => nxt
  | (a, _) :: _, _ => some a

/-- The pointer to the last node of `l`, or `prev` if `l` is empty. -/
def lastPtr : Option ℕ → List (ℕ × α) → Option ℕ
  | prev, [] => prev
  | _, (a, _) :: l => lastPtr (some a) l

/-- The nodes of `l` lie in the heap, linked both ways, between `prev` and `nxt`. -/
def DSeg (h : Heap α) : Option ℕ → List (ℕ × α) → Option ℕ → Prop
  | _, [], _ => True
  | prev, (a, d) :: l, nxt =>
    h.cells a = some ⟨d, firstPtr l nxt, prev⟩ ∧ DSeg h (some a) l nxt

@[simp] theorem firstPtr_nil (nxt : Option ℕ) : firstPtr ([] : List (ℕ × α)) nxt = nxt :=
  rfl

@[simp] theorem firstPtr_cons (x : ℕ × α) (l : List (ℕ × α)) (nxt : Option ℕ) :
    firstPtr (x :: l) nxt = some x.1 :=
  rfl

theorem firstPtr_append (l₁ l₂ : List (ℕ × α)) (nxt : Option ℕ) :
    firstPtr (l₁ ++ l₂) nxt = firstPtr l₁ (firstPtr l₂ nxt) := by
  cases l₁ <;> rfl

@[simp] theorem lastPtr_nil (prev : Option ℕ) : lastPtr prev ([] : List (ℕ × α)) = prev :=
  rfl

@[simp] theorem lastPtr_cons (prev : Option ℕ) (x : ℕ × α) (l : List (ℕ × α)) :
    lastPtr prev (x :: l) = lastPtr (some x.1) l :=
  rfl

@[simp] theorem lastPtr_append_singleton (prev : Option ℕ) (l : List (ℕ × α)) (x : ℕ × α) :
    lastPtr prev (l ++ [x]) = some x.1 := by
  induction l generalizing prev with
  | nil => rfl
  | cons y l ih => exact ih _

theorem lastPtr_append_of_ne_nil {l₂ : List (ℕ × α)} (hne : l₂ ≠ []) (prev prev' : Option ℕ)
    (l₁ : List (ℕ × α)) : lastPtr prev (l₁ ++ l₂) = lastPtr prev' l₂ := by
  obtain ⟨l₂, x, rfl⟩ := (List.eq_nil_or_concat l₂).resolve_left hne
  rw [List.concat_eq_append, ← List.append_assoc, lastPtr_append_singleton,
    lastPtr_append_singleton]

@[simp] theorem dseg_nil (h : Heap α) (prev nxt : Option ℕ) : DSeg h prev [] nxt :=
  trivial

theorem dseg_cons {h : Heap α} {prev nxt : Option ℕ} {a : ℕ} {d : α} {l : List (ℕ × α)} :
    DSeg h prev ((a, d) :: l) nxt ↔
      h.cells a = some ⟨d, firstPtr l nxt, prev⟩ ∧ DSeg h (some a) l nxt :=
  Iff.rfl

/-- A segment cut in two. -/
theorem dseg_append {h : Heap α} {l₁ l₂ : List (ℕ × α)} {prev nxt : Option ℕ} :
    DSeg h prev (l₁ ++ l₂) nxt ↔
      DSeg h prev l₁ (firstPtr l₂ nxt) ∧ DSeg h (lastPtr prev l₁) l₂ nxt := by
  induction l₁ generalizing prev with
  | nil => simp
  | cons x l₁ ih =>
    obtain ⟨a, d⟩ := x
    simp only [List.cons_append, dseg_cons, firstPtr_append, ih, lastPtr_cons, and_assoc]

/-- A segment depends on its own nodes only. -/
theorem DSeg.congr {h h' : Heap α} {l : List (ℕ × α)} {prev nxt : Option ℕ}
    (hs : DSeg h prev l nxt) (heq : ∀ x ∈ l, h'.cells x.1 = h.cells x.1) : DSeg h' prev l nxt := by
  induction l generalizing prev with
  | nil => trivial
  | cons x l ih =>
    obtain ⟨a, d⟩ := x
    exact ⟨(heq (a, d) (by simp)).trans hs.1, ih hs.2 fun y hy => heq y (by simp [hy])⟩

/-- Writing outside a segment keeps it. -/
theorem DSeg.write {h : Heap α} {l : List (ℕ × α)} {prev nxt : Option ℕ} (hs : DSeg h prev l nxt)
    {a : ℕ} (ha : a ∉ l.map Prod.fst) (n : Node α) : DSeg (h.write a n) prev l nxt :=
  hs.congr fun x hx => by
    rw [Heap.cells_write, Function.update_of_ne]
    rintro rfl
    exact ha (List.mem_map_of_mem hx)

/-- Freeing outside a segment keeps it. -/
theorem DSeg.erase {h : Heap α} {l : List (ℕ × α)} {prev nxt : Option ℕ} (hs : DSeg h prev l nxt)
    {a : ℕ} (ha : a ∉ l.map Prod.fst) : DSeg (h.erase a) prev l nxt :=
  hs.congr fun x hx => by
    rw [Heap.cells_erase, Function.update_of_ne]
    rintro rfl
    exact ha (List.mem_map_of_mem hx)

theorem DSeg.exists_cell {h : Heap α} {l : List (ℕ × α)} {prev nxt : Option ℕ}
    (hs : DSeg h prev l nxt) {x : ℕ × α} (hx : x ∈ l) :
    ∃ n, h.cells x.1 = some n ∧ n.data = x.2 := by
  induction l generalizing prev with
  | nil => cases hx
  | cons y l ih =>
    obtain ⟨a, d⟩ := y
    rcases List.mem_cons.1 hx with rfl | hx
    · exact ⟨_, hs.1, rfl⟩
    · exact ih hs.2 hx

/-- Give the last node of a segment another successor. -/
theorem DSeg.setNext {h : Heap α} {l : List (ℕ × α)} {a : ℕ} {d : α} {prev nxt : Option ℕ}
    (hs : DSeg h prev (l ++ [(a, d)]) nxt) (hnd : ((l ++ [(a, d)]).map Prod.fst).Nodup)
    (nxt' : Option ℕ) :
    ∃ h', h.modify (some a) (fun n => { n with next := nxt' }) = some h' ∧
      DSeg h' prev (l ++ [(a, d)]) nxt' ∧ (∀ b, b ≠ a → h'.cells b = h.cells b) := by
  obtain ⟨hl, ha, -⟩ := dseg_append.1 hs
  refine ⟨_, Heap.modify_some ha _, dseg_append.2 ⟨hl.write ?_ _, ?_, trivial⟩, ?_⟩
  · simp only [List.map_append, List.map_cons, List.map_nil] at hnd
    exact fun hm => (List.nodup_append.1 hnd).2.2 a hm a (by simp) rfl
  · simp
  · intro b hb
    simp [Function.update_of_ne hb]

/-- Give the first node of a segment another predecessor. -/
theorem DSeg.setPrev {h : Heap α} {l : List (ℕ × α)} {a : ℕ} {d : α} {prev nxt : Option ℕ}
    (hs : DSeg h prev ((a, d) :: l) nxt) (hnd : (((a, d) :: l).map Prod.fst).Nodup)
    (prev' : Option ℕ) :
    ∃ h', h.modify (some a) (fun n => { n with prev := prev' }) = some h' ∧
      DSeg h' prev' ((a, d) :: l) nxt ∧ (∀ b, b ≠ a → h'.cells b = h.cells b) := by
  obtain ⟨ha, hl⟩ := hs
  refine ⟨_, Heap.modify_some ha _, ⟨by simp, hl.write ?_ _⟩, ?_⟩
  · simpa using (List.nodup_cons.1 hnd).1
  · intro b hb
    simp [Function.update_of_ne hb]

/-! ## Lists -/

/-- The list from `head` holds the nodes of `l`. -/
structure DList (h : Heap α) (head : Option ℕ) (l : List (ℕ × α)) : Prop where
  head_eq : head = firstPtr l none
  seg : DSeg h none l none
  nodup : (l.map Prod.fst).Nodup

namespace DList

variable {h : Heap α} {head : Option ℕ} {l : List (ℕ × α)}

theorem nil (h : Heap α) : DList h none ([] : List (ℕ × α)) :=
  ⟨rfl, trivial, List.nodup_nil⟩

/-- An unused block is not in the list. -/
theorem notMem_of_cells_eq_none (hl : DList h head l) {a : ℕ} (ha : h.cells a = none) :
    a ∉ l.map Prod.fst := by
  intro hm
  obtain ⟨x, hx, rfl⟩ := List.mem_map.1 hm
  obtain ⟨n, hn, -⟩ := hl.seg.exists_cell hx
  rw [ha] at hn
  cases hn

theorem head_eq_none_iff (hl : DList h head l) : head = none ↔ l = [] := by
  rw [hl.head_eq]
  cases l <;> simp

/-- A list is never longer than the heap. -/
theorem length_le_bound (hl : DList h head l) : l.length ≤ h.bound := by
  have hsub : l.map Prod.fst ⊆ List.range h.bound := by
    intro a ha
    obtain ⟨x, hx, rfl⟩ := List.mem_map.1 ha
    obtain ⟨n, hn, -⟩ := hl.seg.exists_cell hx
    exact List.mem_range.2 (Heap.lt_bound hn)
  simpa using (List.subperm_of_subset hl.nodup hsub).length_le

end DList

/-- A search in a segment that ends in NULL returns the first match. -/
theorem search_of_dseg {h : Heap α} (q : α → Bool) {l : List (ℕ × α)} {prev : Option ℕ} {fuel : ℕ}
    (hs : DSeg h prev l none) (hf : l.length ≤ fuel) :
    h.search q fuel (firstPtr l none) = some ((l.find? fun x => q x.2).map Prod.fst) := by
  induction l generalizing prev fuel with
  | nil => cases fuel <;> rfl
  | cons x l ih =>
    obtain ⟨a, d⟩ := x
    obtain ⟨fuel, rfl⟩ : ∃ k, fuel = k + 1 := ⟨fuel - 1, by simp at hf; omega⟩
    obtain ⟨ha, hl⟩ := hs
    simp only [firstPtr_cons, Heap.search, ha, List.find?_cons]
    cases hq : q d with
    | true => simp
    | false => simpa using ih hl (by simpa using hf)

theorem toList_of_dseg {h : Heap α} {l : List (ℕ × α)} {prev : Option ℕ} {fuel : ℕ}
    (hs : DSeg h prev l none) (hf : l.length ≤ fuel) :
    h.toList fuel (firstPtr l none) = some (l.map Prod.snd) := by
  induction l generalizing prev fuel with
  | nil => cases fuel <;> rfl
  | cons x l ih =>
    obtain ⟨a, d⟩ := x
    obtain ⟨fuel, rfl⟩ : ∃ k, fuel = k + 1 := ⟨fuel - 1, by simp at hf; omega⟩
    obtain ⟨ha, hl⟩ := hs
    simp [Heap.toList, ha, ih hl (by simpa using hf)]

namespace DList

variable {h : Heap α} {head : Option ℕ} {l : List (ℕ × α)}

/-- A walk from the head ends and reads the whole list. -/
theorem toList_eq (hl : DList h head l) : h.toList h.bound head = some (l.map Prod.snd) := by
  rw [hl.head_eq]
  exact toList_of_dseg hl.seg hl.length_le_bound

/-- A search from the head ends and returns the first match. -/
theorem search_eq (hl : DList h head l) (q : α → Bool) :
    h.search q h.bound head = some ((l.find? fun x => q x.2).map Prod.fst) := by
  rw [hl.head_eq]
  exact search_of_dseg q hl.seg hl.length_le_bound

/-- Writing outside a list keeps it. -/
theorem write (hl : DList h head l) {a : ℕ} (ha : a ∉ l.map Prod.fst) (n : Node α) :
    DList (h.write a n) head l :=
  ⟨hl.head_eq, hl.seg.write ha n, hl.nodup⟩

/-- Freeing outside a list keeps it. -/
theorem erase (hl : DList h head l) {a : ℕ} (ha : a ∉ l.map Prod.fst) :
    DList (h.erase a) head l :=
  ⟨hl.head_eq, hl.seg.erase ha, hl.nodup⟩

theorem singleton {a : ℕ} {d : α} (ha : h.cells a = some ⟨d, none, none⟩) :
    DList h (some a) [(a, d)] :=
  ⟨rfl, ⟨ha, trivial⟩, by simp⟩

/-- Link a node that already points at the head in front of a list that is not empty. -/
theorem pushFront {a : ℕ} {d : α} (hl : DList h head l) (hne : l ≠ [])
    (ha : h.cells a = some ⟨d, head, none⟩) (hal : a ∉ l.map Prod.fst) :
    ∃ h', h.modify head (fun n => { n with prev := some a }) = some h' ∧
      DList h' (some a) ((a, d) :: l) ∧
      ∀ b, some b ≠ head → h'.cells b = h.cells b := by
  obtain ⟨⟨b, e⟩, l, rfl⟩ := List.exists_cons_of_ne_nil hne
  obtain rfl : head = some b := hl.head_eq
  obtain ⟨h', hm, hs, hf⟩ := hl.seg.setPrev hl.nodup (some a)
  have hab : a ≠ b := fun hab => hal (by simp [hab])
  refine ⟨h', hm, ⟨rfl, ⟨(hf a hab).trans ha, hs⟩, List.nodup_cons.2 ⟨hal, hl.nodup⟩⟩, ?_⟩
  exact fun c hc => hf c fun hcb => hc (by rw [hcb])

/-- Link a new node behind the last one. -/
theorem pushBack {t a : ℕ} {d e : α} (hl : DList h head (l ++ [(t, e)]))
    (ha : h.cells a = some ⟨d, none, none⟩) (hal : a ∉ (l ++ [(t, e)]).map Prod.fst) :
    ∃ h₁ h₂, h.modify (some t) (fun n => { n with next := some a }) = some h₁ ∧
      h₁.modify (some a) (fun n => { n with prev := some t }) = some h₂ ∧
      DList h₂ head (l ++ [(t, e)] ++ [(a, d)]) := by
  obtain ⟨h₁, hm₁, hs₁, hf₁⟩ := hl.seg.setNext hl.nodup (some a)
  have hat : a ≠ t := by
    rintro rfl
    simp at hal
  have ha₁ : h₁.cells a = some ⟨d, none, none⟩ := (hf₁ a hat).trans ha
  refine ⟨h₁, _, hm₁, Heap.modify_some ha₁ _, ⟨?_, dseg_append.2 ⟨hs₁.write hal _, ?_⟩, ?_⟩⟩
  · rw [hl.head_eq, firstPtr_append, firstPtr_append, firstPtr_append]
    rfl
  · simp [DSeg]
  · rw [List.map_append, List.nodup_append]
    refine ⟨hl.nodup, by simp, ?_⟩
    rintro b hb c hc rfl
    obtain rfl : b = a := by simpa using hc
    exact hal hb

/-- Take the first node out of a list of two or more. -/
theorem unlinkFirst {a b : ℕ} {d e : α} (hl : DList h head ((a, d) :: (b, e) :: l)) :
    ∃ h', h.modify (some b) (fun n => { n with prev := none }) = some h' ∧
      DList h' (some b) ((b, e) :: l) ∧ h'.cells a = h.cells a := by
  obtain ⟨ha, hs⟩ := hl.seg
  have hnd := List.nodup_cons.1 hl.nodup
  obtain ⟨h', hm, hs', hf⟩ := hs.setPrev hnd.2 none
  refine ⟨h', hm, ⟨rfl, hs', hnd.2⟩, hf a ?_⟩
  rintro rfl
  exact hnd.1 (by simp)

/-- Take the last node out of a list of two or more. -/
theorem unlinkLast {p a : ℕ} {c d : α} (hl : DList h head (l ++ [(p, c)] ++ [(a, d)])) :
    ∃ h', h.modify (some p) (fun n => { n with next := none }) = some h' ∧
      DList h' head (l ++ [(p, c)]) ∧ h'.cells a = h.cells a := by
  obtain ⟨hs, -⟩ := dseg_append.1 hl.seg
  have hnd := hl.nodup
  rw [List.map_append, List.nodup_append] at hnd
  obtain ⟨h', hm, hs', hf⟩ := hs.setNext hnd.1 none
  refine ⟨h', hm, ⟨?_, hs', hnd.1⟩, hf a ?_⟩
  · rw [hl.head_eq, firstPtr_append, firstPtr_append, firstPtr_append]
    rfl
  · rintro rfl
    exact hnd.2.2 a (by simp) a (by simp) rfl

/-- Take a node out from between two others. -/
theorem unlinkMiddle {p a b : ℕ} {c d e : α} {r : List (ℕ × α)}
    (hl : DList h head (l ++ [(p, c)] ++ (a, d) :: (b, e) :: r)) :
    ∃ h₁ h₂, h.modify (some p) (fun n => { n with next := some b }) = some h₁ ∧
      h₁.modify (some b) (fun n => { n with prev := some p }) = some h₂ ∧
      DList h₂ head (l ++ [(p, c)] ++ (b, e) :: r) ∧
      h₁.cells a = h.cells a ∧ h₂.cells a = h.cells a := by
  obtain ⟨hs, -, hr⟩ := dseg_append.1 hl.seg
  have hnd := hl.nodup
  rw [List.map_append, List.nodup_append] at hnd
  obtain ⟨hndl, hndr, hdis⟩ := hnd
  have hndr' := List.nodup_cons.1 hndr
  obtain ⟨h₁, hm₁, hs₁, hf₁⟩ := hs.setNext hndl (some b)
  have hr₁ : DSeg h₁ (some a) ((b, e) :: r) none :=
    hr.congr fun x hx => hf₁ _ fun hxp =>
      hdis p (by simp) p (List.mem_cons_of_mem _ (hxp ▸ List.mem_map_of_mem hx)) rfl
  obtain ⟨h₂, hm₂, hr₂, hf₂⟩ := hr₁.setPrev hndr'.2 (some p)
  have hap : a ≠ p := by
    rintro rfl
    exact hdis a (by simp) a (by simp) rfl
  have hab : a ≠ b := by
    rintro rfl
    exact hndr'.1 (by simp)
  refine ⟨h₁, h₂, hm₁, hm₂, ⟨?_, dseg_append.2 ⟨hs₁.congr fun x hx => hf₂ _ ?_, ?_⟩, ?_⟩,
    hf₁ a hap, (hf₂ a hab).trans (hf₁ a hap)⟩
  · rw [hl.head_eq, firstPtr_append, firstPtr_append, firstPtr_append, firstPtr_append]
    rfl
  · rintro rfl
    exact hdis _ (List.mem_map_of_mem hx) _ (by simp) rfl
  · simpa using hr₂
  · rw [List.map_append, List.nodup_append]
    exact ⟨hndl, hndr'.2, fun x hx y hy => hdis x hx y (List.mem_cons_of_mem _ hy)⟩

/-- Change the data of a node. -/
theorem setData {a : ℕ} {d : α} {r : List (ℕ × α)} (hl : DList h head (l ++ (a, d) :: r))
    (f : α → α) : ∃ h', h.modify (some a) (fun n => { n with data := f n.data }) = some h' ∧
      DList h' head (l ++ (a, f d) :: r) := by
  obtain ⟨hs, ha, hr⟩ := dseg_append.1 hl.seg
  have hnd := hl.nodup
  rw [List.map_append, List.nodup_append] at hnd
  obtain ⟨-, hndr, hdis⟩ := hnd
  refine ⟨_, Heap.modify_some ha _, ⟨?_, dseg_append.2 ⟨hs.write ?_ _, ?_, hr.write ?_ _⟩, ?_⟩⟩
  · rw [hl.head_eq, firstPtr_append, firstPtr_append]
    rfl
  · exact fun hm => hdis a hm a (by simp) rfl
  · simp
  · exact (List.nodup_cons.1 hndr).1
  · simpa using hl.nodup

end DList

end NetProg
