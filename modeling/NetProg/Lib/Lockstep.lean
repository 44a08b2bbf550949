import NetProg.Lib.Run

/-!
# Requests and replies on streams of bytes

A client writes a request and reads a reply, in turns, and a server reads and writes. The streams
keep the bytes and not the boundaries of the writes : a read returns as many of the bytes in flight
as it likes, up to what it asks for.

Nobody writes a second message in front of the answer to the first, so that the boundaries are kept
as long as each read returns all that is in flight (`Phase.step`). A read that returns less ends the
order at once (`Phase.not_inStep`).
-/

namespace NetProg.Lib

variable {α : Type*}

/-- The bytes in flight to the server and to the client, and what was written and read at both
ends : `asked` and `heard` by the client, `got` and `told` by the server. -/
structure Dialogue (α : Type*) where
  up : List α
  down : List α
  asked : List (List α)
  got : List (List α)
  told : List (List α)
  heard : List (List α)

namespace Dialogue

/-- A write or a read. A read says how many bytes it returns. -/
inductive Label (α : Type*) where
  | ask (bytes : List α)
  | take (n : ℕ)
  | tell (bytes : List α)
  | hear (n : ℕ)

/-- Nothing is written. -/
def init : Dialogue α :=
  ⟨[], [], [], [], [], []⟩

/-- The client waits between its write and its read, and the server between its read and its
write. The reads ask for `capUp` and `capDown` bytes. -/
def step (capUp capDown : ℕ) (s : Dialogue α) : Label α → Option (Dialogue α)
  | .ask bytes =>
    if s.heard.length = s.asked.length ∧ bytes ≠ [] then
      some { s with up := s.up ++ bytes, asked := s.asked ++ [bytes] }
    else none
  | .take n =>
    if s.told.length = s.got.length ∧ 0 < n ∧ n ≤ capUp ∧ n ≤ s.up.length then
      some { s with up := s.up.drop n, got := s.got ++ [s.up.take n] }
    else none
  | .tell bytes =>
    if s.told.length < s.got.length ∧ bytes ≠ [] then
      some { s with down := s.down ++ bytes, told := s.told ++ [bytes] }
    else none
  | .hear n =>
    if s.heard.length < s.asked.length ∧ 0 < n ∧ n ≤ capDown ∧ n ≤ s.down.length then
      some { s with down := s.down.drop n, heard := s.heard ++ [s.down.take n] }
    else none

/-- Each read has returned what one write wrote, in order. -/
def InStep (s : Dialogue α) : Prop :=
  s.got <+: s.asked ∧ s.heard <+: s.told

/-- A read returns all that is in flight. -/
def Whole (s : Dialogue α) : Label α → Prop
  | .take n => n = s.up.length
  | .hear n => n = s.down.length
  | _ => True

instance (s : Dialogue α) : ∀ l, Decidable (Whole s l)
  | .take _ | .hear _ => inferInstanceAs (Decidable (_ = _))
  | .ask _ | .tell _ => .isTrue trivial

/-- Where the two are : nothing is to be done, a request is in flight, the server has it, or a
reply is in flight. -/
inductive Phase (s : Dialogue α) : Prop
  | idle (hgot : s.asked = s.got) (hheard : s.told = s.heard) (hup : s.up = []) (hdown : s.down = [])
      (hlen : s.got.length = s.told.length)
  | asked (hgot : s.asked = s.got ++ [s.up]) (hheard : s.told = s.heard) (hdown : s.down = [])
      (hlen : s.got.length = s.told.length)
  | taken (hgot : s.asked = s.got) (hheard : s.told = s.heard) (hup : s.up = []) (hdown : s.down = [])
      (hlen : s.got.length = s.told.length + 1)
  | told (hgot : s.asked = s.got) (hheard : s.told = s.heard ++ [s.down]) (hup : s.up = [])
      (hlen : s.got.length = s.told.length)

variable {capUp capDown : ℕ} {s s' : Dialogue α}

theorem Phase.inStep (h : Phase s) : InStep s := by
  cases h with
  | idle hgot hheard _ _ _ => exact ⟨hgot ▸ List.prefix_rfl, hheard ▸ List.prefix_rfl⟩
  | asked hgot hheard _ _ => exact ⟨hgot ▸ List.prefix_append _ _, hheard ▸ List.prefix_rfl⟩
  | taken hgot hheard _ _ _ => exact ⟨hgot ▸ List.prefix_rfl, hheard ▸ List.prefix_rfl⟩
  | told hgot hheard _ _ => exact ⟨hgot ▸ List.prefix_rfl, hheard ▸ List.prefix_append _ _⟩

/-- A label is possible in one phase only. -/
theorem Phase.step {l : Label α} (h : Phase s) (hw : Whole s l)
    (hs : step capUp capDown s l = some s') : Phase s' := by
  cases l with
  | ask bytes =>
    simp only [Dialogue.step] at hs
    split_ifs at hs with hguard
    obtain rfl := Option.some.inj hs
    cases h with
    | idle hgot hheard hup hdown hlen =>
      exact .asked (by simp [hgot, hup]) hheard hdown hlen
    | asked hgot hheard hdown hlen =>
      have := congrArg List.length hgot
      simp only [List.length_append, List.length_singleton, hheard] at this hlen
      omega
    | taken hgot hheard hup hdown hlen =>
      simp only [hgot, hheard] at hguard hlen
      omega
    | told hgot hheard hup hlen =>
      simp only [hgot, hheard, List.length_append, List.length_singleton] at hguard hlen
      omega
  | take n =>
    simp only [Dialogue.step] at hs
    split_ifs at hs with hguard
    obtain rfl := Option.some.inj hs
    obtain rfl : n = s.up.length := hw
    cases h with
    | asked hgot hheard hdown hlen =>
      exact .taken (by simp [hgot]) hheard (by simp) hdown (by simp [hlen])
    | idle _ _ hup _ _ | taken _ _ hup _ _ | told _ _ hup _ =>
      simp [hup] at hguard
  | tell bytes =>
    simp only [Dialogue.step] at hs
    split_ifs at hs with hguard
    obtain rfl := Option.some.inj hs
    cases h with
    | taken hgot hheard hup hdown hlen =>
      exact .told hgot (by simp [hheard, hdown]) hup (by simp [hlen])
    | idle _ _ _ _ hlen | asked _ _ _ hlen | told _ _ _ hlen => omega
  | hear n =>
    simp only [Dialogue.step] at hs
    split_ifs at hs with hguard
    obtain rfl := Option.some.inj hs
    obtain rfl : n = s.down.length := hw
    cases h with
    | told hgot hheard hup hlen =>
      exact .idle hgot (by simp [hheard]) hup (by simp) hlen
    | idle _ _ _ hdown _ | asked _ _ hdown _ | taken _ _ _ hdown _ =>
      simp [hdown] at hguard

theorem not_prefix_take {xs : List (List α)} {bytes : List α} {n : ℕ} (hn : n < bytes.length) :
    ¬xs ++ [bytes.take n] <+: xs ++ [bytes] := by
  intro h
  have heq := h.eq_of_length (by simp)
  have htake := List.singleton_inj.1 (List.append_cancel_left heq)
  have hlen := congrArg List.length htake
  rw [List.length_take] at hlen
  omega

/-- A read that returns less ends the order at once. -/
theorem Phase.not_inStep {l : Label α} (h : Phase s) (hw : ¬Whole s l)
    (hs : Dialogue.step capUp capDown s l = some s') : ¬InStep s' := by
  cases l with
  | ask bytes | tell bytes => exact absurd trivial hw
  | take n =>
    simp only [Dialogue.step] at hs
    split_ifs at hs with hguard
    obtain rfl := Option.some.inj hs
    have hlt : n < s.up.length := lt_of_le_of_ne hguard.2.2.2 hw
    cases h with
    | asked hgot hheard hdown hlen =>
      rw [InStep, hgot]
      exact fun hstep => not_prefix_take hlt hstep.1
    | idle _ _ hup _ _ | taken _ _ hup _ _ | told _ _ hup _ =>
      simp [hup] at hlt
  | hear n =>
    simp only [Dialogue.step] at hs
    split_ifs at hs with hguard
    obtain rfl := Option.some.inj hs
    have hlt : n < s.down.length := lt_of_le_of_ne hguard.2.2.2 hw
    cases h with
    | told hgot hheard hup hlen =>
      rw [InStep, hheard]
      exact fun hstep => not_prefix_take hlt hstep.2
    | idle _ _ _ hdown _ | asked _ _ hdown _ | taken _ _ _ hdown _ =>
      simp [hdown] at hlt

/-- What a read returned is no longer than what it asked for. -/
def ReadsFit (capUp capDown : ℕ) (s : Dialogue α) : Prop :=
  (∀ bytes ∈ s.got, bytes.length ≤ capUp) ∧ ∀ bytes ∈ s.heard, bytes.length ≤ capDown

theorem ReadsFit.step {l : Label α} (h : ReadsFit capUp capDown s)
    (hs : Dialogue.step capUp capDown s l = some s') : ReadsFit capUp capDown s' := by
  obtain ⟨hgot, hheard⟩ := h
  cases l with
  | ask bytes | tell bytes =>
    simp only [Dialogue.step] at hs
    split_ifs at hs
    obtain rfl := Option.some.inj hs
    exact ⟨hgot, hheard⟩
  | take n =>
    simp only [Dialogue.step] at hs
    split_ifs at hs with hguard
    obtain rfl := Option.some.inj hs
    refine ⟨fun bytes hmem => ?_, hheard⟩
    rcases List.mem_append.1 hmem with hmem | hmem
    · exact hgot bytes hmem
    · rw [List.mem_singleton.1 hmem, List.length_take]
      exact (min_le_left _ _).trans hguard.2.2.1
  | hear n =>
    simp only [Dialogue.step] at hs
    split_ifs at hs with hguard
    obtain rfl := Option.some.inj hs
    refine ⟨hgot, fun bytes hmem => ?_⟩
    rcases List.mem_append.1 hmem with hmem | hmem
    · exact hheard bytes hmem
    · rw [List.mem_singleton.1 hmem, List.length_take]
      exact (min_le_left _ _).trans hguard.2.2.1

end Dialogue

end NetProg.Lib
