import Mathlib.Tactic

/-!
# Requests and responses in queues

Callers put requests on a queue. A server takes them from its front and puts the responses
on a second queue, from which whichever caller comes next takes the front. Each request has
a number, which the callers do not see, and the response to it has the same number.

`Fifo` says that the numbers in the queues are in order and are the ones that callers wait
for, and that the requests and responses are right for the callers. The front response is
then for the caller that has waited longest, and for no other (`Fifo.front_eq_iff`).
-/

namespace NetProg.Lib

/-- The requests that are not served and the responses that are not received. -/
structure Exchange (α β : Type*) where
  requests : List (ℕ × α)
  responses : List (ℕ × β)

namespace Exchange

variable {α β γ ι : Type*}

/-- Nothing is under way. -/
def empty : Exchange α β :=
  ⟨[], []⟩

/-- Put request `n` on the queue. -/
def send (x : Exchange α β) (n : ℕ) (a : α) : Exchange α β :=
  { x with requests := x.requests ++ [(n, a)] }

/-- Take a request from the queue and put its responses on the other. -/
def serve (x : Exchange α β) (n : ℕ) (rest : List (ℕ × α)) (bs : List β) : Exchange α β :=
  ⟨rest, x.responses ++ bs.map fun b => (n, b)⟩

/-- Take a response from the queue. -/
def receive (x : Exchange α β) (rest : List (ℕ × β)) : Exchange α β :=
  { x with responses := rest }

/-- The numbers under way, from the front. -/
def ids (x : Exchange α β) : List ℕ :=
  x.responses.map Prod.fst ++ x.requests.map Prod.fst

/-- The numbers are in order and are what the callers wait for. A caller waits with what it
has asked. Its request meets `req`, and the response to it meets `res`. -/
structure Fifo (req : γ → α → Prop) (res : γ → ℕ → β → Prop) (x : Exchange α β)
    (waits : ι → Option (γ × ℕ)) (next : ℕ) : Prop where
  sorted : x.ids.Pairwise (· < ·)
  lt_next : ∀ n ∈ x.ids, n < next
  mem_iff : ∀ n, n ∈ x.ids ↔ ∃ p c, waits p = some (c, n)
  inj : ∀ p q c d n, waits p = some (c, n) → waits q = some (d, n) → p = q
  request : ∀ p c n a, waits p = some (c, n) → (n, a) ∈ x.requests → req c a
  response : ∀ p c n b, waits p = some (c, n) → (n, b) ∈ x.responses → res c n b

namespace Fifo

variable {req : γ → α → Prop} {res : γ → ℕ → β → Prop} {x : Exchange α β}
  {waits : ι → Option (γ × ℕ)} {next : ℕ}

theorem empty : Fifo req res (empty : Exchange α β) (fun _ : ι => none) next where
  sorted := List.Pairwise.nil
  lt_next n hn := by cases hn
  mem_iff n := iff_of_false (by simp [Exchange.empty, ids]) fun ⟨_, _, hp⟩ => by cases hp
  inj p q c d n hp := by cases hp
  request p c n a hp := by cases hp
  response p c n b hp := by cases hp

theorem mono (h : Fifo req res x waits next) {res' : γ → ℕ → β → Prop}
    (himp : ∀ c n b, res c n b → res' c n b) {next' : ℕ} (hle : next ≤ next') :
    Fifo req res' x waits next' :=
  { h with
    lt_next := fun n hn => (h.lt_next n hn).trans_le hle
    response := fun p c n b hp hb => himp c n b (h.response p c n b hp hb) }

theorem mem_of_request {n : ℕ} {a : α} (h : (n, a) ∈ x.requests) : n ∈ x.ids :=
  List.mem_append_right _ (List.mem_map_of_mem h)

theorem mem_of_response {n : ℕ} {b : β} (h : (n, b) ∈ x.responses) : n ∈ x.ids :=
  List.mem_append_left _ (List.mem_map_of_mem h)

theorem lt_of_waits (h : Fifo req res x waits next) {p : ι} {c : γ} {n : ℕ}
    (hp : waits p = some (c, n)) : n < next :=
  h.lt_next n ((h.mem_iff n).2 ⟨p, c, hp⟩)

/-- A caller that waits for nothing sends a request. -/
theorem send [DecidableEq ι] (h : Fifo req res x waits next) {p : ι} (hp : waits p = none) {c : γ}
    {a : α} (ha : req c a) :
    Fifo req res (x.send next a) (Function.update waits p (some (c, next))) (next + 1) := by
  have hids : (x.send next a).ids = x.ids ++ [next] := by
    simp [Exchange.send, ids]
  -- a caller after the step is `p`, or has waited before
  have hwaits : ∀ q d n, Function.update waits p (some (c, next)) q = some (d, n) →
      q = p ∧ d = c ∧ n = next ∨ q ≠ p ∧ waits q = some (d, n) ∧ n < next := by
    intro q d n hq
    by_cases hqp : q = p
    · rw [hqp, Function.update_self] at hq
      cases hq
      exact .inl ⟨hqp, rfl, rfl⟩
    · rw [Function.update_of_ne hqp] at hq
      exact .inr ⟨hqp, hq, h.lt_of_waits hq⟩
  constructor
  · rw [hids, List.pairwise_append]
    refine ⟨h.sorted, List.pairwise_singleton _ _, fun n hn m hm => ?_⟩
    rw [List.mem_singleton.1 hm]
    exact h.lt_next n hn
  · intro n hn
    rw [hids, List.mem_append, List.mem_singleton] at hn
    rcases hn with hn | rfl
    · exact (h.lt_next n hn).trans (Nat.lt_succ_self next)
    · exact Nat.lt_succ_self _
  · intro n
    rw [hids, List.mem_append, List.mem_singleton, h.mem_iff]
    constructor
    · rintro (⟨q, d, hq⟩ | rfl)
      · have hqp : q ≠ p := fun heq => by
          rw [heq, hp] at hq
          cases hq
        exact ⟨q, d, by rwa [Function.update_of_ne hqp]⟩
      · exact ⟨p, c, Function.update_self ..⟩
    · rintro ⟨q, d, hq⟩
      rcases hwaits q d n hq with ⟨-, -, hn⟩ | ⟨-, hq, -⟩
      · exact .inr hn
      · exact .inl ⟨q, d, hq⟩
  · intro q r d e n hq hr
    rcases hwaits q d n hq with ⟨hq, -, hn⟩ | ⟨-, hq, hn⟩ <;>
      rcases hwaits r e n hr with ⟨hr, -, hm⟩ | ⟨-, hr, hm⟩
    · rw [hq, hr]
    · omega
    · omega
    · exact h.inj q r d e n hq hr
  · intro q d n a' hq hmem
    rcases List.mem_append.1 hmem with hmem | hmem
    · have hlt := h.lt_next n (mem_of_request hmem)
      rcases hwaits q d n hq with ⟨-, -, hn⟩ | ⟨-, hq, -⟩
      · omega
      · exact h.request q d n a' hq hmem
    · cases List.mem_singleton.1 hmem
      rcases hwaits q d next hq with ⟨-, rfl, -⟩ | ⟨-, -, hn⟩
      · exact ha
      · exact absurd hn (lt_irrefl next)
  · intro q d n b hq hmem
    have hlt := h.lt_next n (mem_of_response hmem)
    rcases hwaits q d n hq with ⟨-, -, hn⟩ | ⟨-, hq, -⟩
    · omega
    · exact h.response q d n b hq hmem

/-- The front request gets one response. -/
theorem serve (h : Fifo req res x waits next) {n : ℕ} {a : α} {rest : List (ℕ × α)}
    (hx : x.requests = (n, a) :: rest) {b : β} (hb : ∀ c, req c a → res c n b) :
    Fifo req res (x.serve n rest [b]) waits next := by
  have hids : (x.serve n rest [b]).ids = x.ids := by
    simp [Exchange.serve, ids, hx]
  refine ⟨hids ▸ h.sorted, hids ▸ h.lt_next, hids ▸ h.mem_iff, h.inj, fun p c m a' hp hmem => ?_,
    fun p c m b' hp hmem => ?_⟩
  · exact h.request p c m a' hp (hx ▸ List.mem_cons_of_mem _ hmem)
  · rcases List.mem_append.1 hmem with hmem | hmem
    · exact h.response p c m b' hp hmem
    · cases List.mem_singleton.1 hmem
      exact hb c (h.request p c n a hp (hx ▸ List.mem_cons_self))

theorem ids_of_responses {n : ℕ} {b : β} {rest : List (ℕ × β)}
    (hx : x.responses = (n, b) :: rest) : x.ids = n :: (x.receive rest).ids := by
  simp [Exchange.receive, ids, hx]

/-- A caller finds its own response in front exactly when no other has waited longer. -/
theorem front_eq_iff (h : Fifo req res x waits next) {n m : ℕ} {b : β} {rest : List (ℕ × β)}
    (hx : x.responses = (n, b) :: rest) {p : ι} {c : γ} (hp : waits p = some (c, m)) :
    n = m ↔ ∀ q, q ≠ p → ∀ w ∈ waits q, m < w.2 := by
  have hids := ids_of_responses hx
  have hsorted := h.sorted
  rw [hids] at hsorted
  -- whoever waits, waits for the front response or for a later one
  have hle : ∀ q w, waits q = some w → n = w.2 ∨ n < w.2 := fun q w hq => by
    have hmem := (h.mem_iff w.2).2 ⟨q, w.1, hq⟩
    rw [hids] at hmem
    rcases List.mem_cons.1 hmem with heq | htail
    · exact .inl heq.symm
    · exact .inr (List.rel_of_pairwise_cons hsorted htail)
  constructor
  · rintro rfl q hqp ⟨d, k⟩ hq
    refine (hle q (d, k) hq).resolve_left fun heq => hqp ?_
    exact h.inj q p d c n (by rw [heq]; exact hq) hp
  · intro hold
    obtain ⟨q, d, hq⟩ := (h.mem_iff n).1 (hids ▸ List.mem_cons_self)
    by_cases hqp : q = p
    · rw [hqp, hp] at hq
      cases hq
      rfl
    · have hlt := hold q hqp (d, n) hq
      have := hle p (c, m) hp
      simp only at hlt this
      omega

/-- A caller receives its own response. -/
theorem receive [DecidableEq ι] (h : Fifo req res x waits next) {n : ℕ} {b : β}
    {rest : List (ℕ × β)} (hx : x.responses = (n, b) :: rest) {p : ι} {c : γ}
    (hp : waits p = some (c, n)) :
    Fifo req res (x.receive rest) (Function.update waits p none) next := by
  have hids := ids_of_responses hx
  have hsorted := h.sorted
  rw [hids] at hsorted
  have hfresh : n ∉ (x.receive rest).ids := fun hmem =>
    lt_irrefl n (List.rel_of_pairwise_cons hsorted hmem)
  have hwaits : ∀ q d k, Function.update waits p none q = some (d, k) →
      q ≠ p ∧ waits q = some (d, k) := by
    intro q d k hq
    by_cases hqp : q = p
    · rw [hqp, Function.update_self] at hq
      cases hq
    · rw [Function.update_of_ne hqp] at hq
      exact ⟨hqp, hq⟩
  constructor
  · exact hsorted.of_cons
  · exact fun k hk => h.lt_next k (hids ▸ List.mem_cons_of_mem n hk)
  · refine fun k => ⟨fun hk => ?_, fun ⟨q, d, hq⟩ => ?_⟩
    · obtain ⟨q, d, hq⟩ := (h.mem_iff k).1 (hids ▸ List.mem_cons_of_mem n hk)
      have hqp : q ≠ p := fun heq => by
        rw [heq, hp] at hq
        cases hq
        exact hfresh hk
      exact ⟨q, d, by rwa [Function.update_of_ne hqp]⟩
    · obtain ⟨hqp, hq⟩ := hwaits q d k hq
      have hmem := (h.mem_iff k).2 ⟨q, d, hq⟩
      rw [hids] at hmem
      rcases List.mem_cons.1 hmem with rfl | hmem
      · exact absurd (h.inj q p d c k hq hp) hqp
      · exact hmem
  · exact fun q r d e k hq hr => h.inj q r d e k (hwaits q d k hq).2 (hwaits r e k hr).2
  · exact fun q d k a hq hmem => h.request q d k a (hwaits q d k hq).2 hmem
  · exact fun q d k b' hq hmem =>
      h.response q d k b' (hwaits q d k hq).2 (hx ▸ List.mem_cons_of_mem _ hmem)

end Fifo

end Exchange

end NetProg.Lib
