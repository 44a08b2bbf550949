import NetProg.Cluster.Handler

/-!
# Slots

`Accounted` is what the table of slots is for : a slot is marked active if and only if one
live handler holds it, and that handler's client has the IP of the slot. `Slots` is the
invariant behind it. A step takes a slot, releases one, leaves all as they are, or ends a
handler without releasing its slot (`step_cases`). The last is what becomes of a failed
read of the port and of a bad machine name in a token that `strtok` returns, be it of the
handler's own line or of another one (`Clean`), and it breaks the accounting at once. So a run is
accounted for in every state if and only if all its steps are clean (`accounted_iff`).
-/

namespace NetProg.Cluster

namespace Server

variable {config : Config} {s s' : Server}

/-- The token that the next call of `strtok` by handler `k` returns. -/
def nextToken (s : Server) (k : ℕ) : Option (List Char) :=
  s.handlers[k]?.bind fun h =>
    match h.pc with
    | .parsing _ _ first =>
      (s.cursor k first).bind fun c => (firstToken (cstr (s.buff c.1) c.2)).map Prod.fst
    | _ => none

/-- The event does not end the handler with `pthread_exit` after it has a slot : no read of a port
fails, and every token that `strtok` returns can be parsed. -/
def Clean (s : Server) : Event → Prop
  | .readPort _ none => False
  | .parse k => ∀ tok ∈ s.nextToken k, ¬Unparsable tok
  | _ => True

instance decidableClean (s : Server) : ∀ e, Decidable (Clean s e)
  | .accept _ | .register _ | .readCommand _ _ | .execute _ _ _ | .exit => .isTrue trivial
  | .readPort _ none => .isFalse id
  | .readPort _ (some _) => .isTrue trivial
  | .parse k => inferInstanceAs (Decidable (∀ tok ∈ s.nextToken k, ¬Unparsable tok))

/-- Handler `k` has not ended and holds slot `i`. -/
def Holds (s : Server) (k i : ℕ) : Prop :=
  ∃ h, s.handlers[k]? = some h ∧ h.idx = some i

/-- The client of handler `k` is at the IP of slot `i`. -/
def Serves (config : Config) (s : Server) (k i : ℕ) : Prop :=
  ∃ h, s.handlers[k]? = some h ∧ config.data[i]? = some h.clientIp

/-- A slot is active if and only if exactly one live handler holds it, whose client is at the IP
of the slot. -/
def Accounted (config : Config) (s : Server) : Prop :=
  s.exited = true ∨ ∀ i, s.active i = true ↔
    ∃ k, s.Holds k i ∧ (∀ k', s.Holds k' i → k' = k) ∧ s.Serves config k i

/-- The invariant. -/
structure Slots (config : Config) (s : Server) : Prop where
  unique : ∀ k k' i, s.Holds k i → s.Holds k' i → k = k'
  serves : ∀ k i, s.Holds k i → s.Serves config k i
  active : ∀ i, s.active i = true ↔ ∃ k, s.Holds k i

theorem slots_init : Slots config init := by
  have hnone : ∀ k i, ¬init.Holds k i := fun k i ⟨h, hk, _⟩ => by simp [init] at hk
  exact ⟨fun k k' i hk => absurd hk (hnone k i), fun k i hk => absurd hk (hnone k i),
    fun i => ⟨nofun, fun ⟨k, hk⟩ => absurd hk (hnone k i)⟩⟩

theorem Slots.accounted (h : Slots config s) : Accounted config s := by
  refine .inr fun i => ⟨fun hi => ?_, fun ⟨k, hk, _⟩ => (h.active i).2 ⟨k, hk⟩⟩
  obtain ⟨k, hk⟩ := (h.active i).1 hi
  exact ⟨k, hk, fun k' hk' => h.unique k' k i hk' hk, h.serves k i hk⟩

/-! ## What a step does to the slots -/

/-- What becomes of the slots when a handler goes on from `h` to `h'`. -/
inductive Change (config : Config) (s s' : Server) (e : Event) (h h' : Handler) : Prop
  | keep (hidx : h'.idx = h.idx) (hactive : s'.active = s.active) (he : Clean s e)
  | take (i : ℕ) (hidx : h.idx = none) (hidx' : h'.idx = some i) (hfree : s.active i = false)
      (hip : config.data[i]? = some h.clientIp)
      (hactive : s'.active = Function.update s.active i true) (he : Clean s e)
  | release (i : ℕ) (hidx : h.idx = some i) (hidx' : h'.idx = none)
      (hactive : s'.active = Function.update s.active i false) (he : Clean s e)
  | leak (i : ℕ) (hidx : h.idx = some i) (hidx' : h'.idx = none) (hactive : s'.active = s.active)
      (he : ¬Clean s e)

/-- `registerClientConnection` returns a free slot with the IP of the client. -/
theorem registerClientConnection_eq_some {ip : List Char} {active : Active} {i : ℕ}
    (h : registerClientConnection ip config active = some i) :
    config.data[i]? = some ip ∧ active i = false := by
  simpa using List.find?_some h

/-- A call of `strtok` keeps the slot, unless its token ends the handler. -/
theorem parse_cases {k i : ℕ} {h : Handler} {pipe : List (Cmd ℕ)} {first : Bool} {c : ℕ × ℕ}
    (hk : s.handlers[k]? = some h) (hpc : h.pc = .parsing i pipe first)
    (hcur : s.cursor k first = some c) :
    ∃ h', (s.parse k h i pipe c).handlers = s.handlers.set k h' ∧ h'.clientIp = h.clientIp ∧
      (s.parse k h i pipe c).exited = s.exited ∧
      Change config s (s.parse k h i pipe c) (.parse k) h h' := by
  have hidx : h.idx = some i := by rw [Handler.idx, hpc]
  have htoken : s.nextToken k = (firstToken (cstr (s.buff c.1) c.2)).map Prod.fst := by
    simp only [nextToken, hk, Option.bind_some, hpc, hcur]
  have hclean : Clean s (.parse k) ↔ meaning (cstr (s.buff c.1) c.2) ≠ some none := by
    rw [Clean, htoken, meaning]
    cases firstToken (cstr (s.buff c.1) c.2) with
    | none => simp
    | some x => simp [createCommand, parseToken_eq_none_iff]
  -- what comes of the turn is the meaning of the text at the cursor
  obtain ⟨r, cur, b, hturn, hmean, -⟩ := loopTurn_spec (s.buff c.1) c.2
  rw [← hmean] at hclean
  unfold parse
  simp only [hturn]
  rcases r with _ | _ | ⟨machine, off⟩
  · exact ⟨_, rfl, rfl, rfl, .keep hidx.symm rfl (hclean.2 (by simp))⟩
  · exact ⟨_, rfl, rfl, rfl, .leak i hidx rfl rfl fun he => hclean.1 he rfl⟩
  · exact ⟨_, rfl, rfl, rfl, .keep hidx.symm rfl (hclean.2 (by simp))⟩

/-- A step of a handler. -/
theorem handlerStep_cases {k : ℕ} {h : Handler} {e : Event} (hk : s.handlers[k]? = some h)
    (hek : ∀ j, e = .parse j → j = k) (hs : handlerStep config s k h e = some s') :
    ∃ h', s'.handlers = s.handlers.set k h' ∧ h'.clientIp = h.clientIp ∧ s'.exited = s.exited ∧
      Change config s s' e h h' := by
  cases e with
  | accept ip => cases hs
  | exit => cases hs
  | register j =>
    simp only [handlerStep] at hs
    split_ifs at hs with hpc
    have hidx : h.idx = none := by rw [Handler.idx, hpc]
    cases hreg : registerClientConnection h.clientIp config s.active with
    | none =>
      simp only [hreg] at hs
      obtain rfl := Option.some.inj hs
      exact ⟨_, rfl, rfl, rfl, .keep hidx.symm rfl trivial⟩
    | some i =>
      simp only [hreg] at hs
      obtain rfl := Option.some.inj hs
      obtain ⟨hip, hfree⟩ := registerClientConnection_eq_some hreg
      exact ⟨_, rfl, rfl, rfl, .take i hidx rfl hfree hip rfl trivial⟩
  | readPort j read =>
    simp only [handlerStep] at hs
    split at hs
    · rename_i i hpc
      obtain rfl := Option.some.inj hs
      exact ⟨_, rfl, rfl, rfl, .leak i (by rw [Handler.idx, hpc]) rfl rfl fun he => he⟩
    · rename_i i hpc
      obtain rfl := Option.some.inj hs
      exact ⟨_, rfl, rfl, rfl, .release i (by rw [Handler.idx, hpc]) rfl rfl trivial⟩
    · rename_i i bytes hne hpc
      split_ifs at hs
      obtain rfl := Option.some.inj hs
      exact ⟨_, rfl, rfl, rfl, .keep (by simp only [Handler.idx, hpc]) rfl trivial⟩
    · cases hs
  | readCommand j read =>
    simp only [handlerStep] at hs
    split at hs
    · rename_i i hpc
      obtain rfl := Option.some.inj hs
      exact ⟨_, rfl, rfl, rfl, .release i (by rw [Handler.idx, hpc]) rfl rfl trivial⟩
    · rename_i i hpc
      obtain rfl := Option.some.inj hs
      exact ⟨_, rfl, rfl, rfl, .release i (by rw [Handler.idx, hpc]) rfl rfl trivial⟩
    · rename_i i bytes hne hpc
      split_ifs at hs
      · obtain rfl := Option.some.inj hs
        exact ⟨_, rfl, rfl, rfl, .keep (by simp only [Handler.idx, hpc]) rfl trivial⟩
      · obtain rfl := Option.some.inj hs
        exact ⟨_, rfl, rfl, rfl, .keep (by simp only [Handler.idx, hpc]) rfl trivial⟩
    · cases hs
  | parse j =>
    obtain rfl := hek j rfl
    simp only [handlerStep] at hs
    split at hs
    · rename_i i pipe first hpc
      obtain ⟨c, hcur, rfl⟩ := Option.map_eq_some_iff.1 hs
      exact parse_cases hk hpc hcur
    · cases hs
  | execute j reply stray =>
    simp only [handlerStep] at hs
    split at hs
    · rename_i i output hpc
      obtain rfl := Option.some.inj hs
      exact ⟨_, rfl, rfl, rfl, .keep (by simp only [Handler.idx, hpc]) rfl trivial⟩
    · rename_i i cmd cmds output hpc
      split at hs
      · obtain rfl := Option.some.inj hs
        exact ⟨_, rfl, rfl, rfl, .keep (by simp only [Handler.idx, hpc]) rfl trivial⟩
      · obtain rfl := Option.some.inj hs
        exact ⟨_, rfl, rfl, rfl, .keep (by simp only [Handler.idx, hpc]) rfl trivial⟩
    · cases hs

/-! ## Runs -/

theorem holds_self {k : ℕ} {h : Handler} (hk : s.handlers[k]? = some h) (i : ℕ) :
    s.Holds k i ↔ h.idx = some i := by
  simp [Holds, hk]

section Move

variable {k : ℕ} {h h' : Handler} (hk : s.handlers[k]? = some h)
  (hs : s'.handlers = s.handlers.set k h')

include hk hs

/-- The handlers after handler `k` has gone on. -/
theorem getElem?_move (j : ℕ) : s'.handlers[j]? = if j = k then some h' else s.handlers[j]? := by
  obtain ⟨hlt, -⟩ := List.getElem?_eq_some_iff.1 hk
  rw [hs, List.getElem?_set]
  by_cases hjk : j = k
  · rw [if_pos hjk.symm, if_pos hjk, if_pos (hjk ▸ hlt)]
  · rw [if_neg (Ne.symm hjk), if_neg hjk]

theorem holds_move (j i : ℕ) :
    s'.Holds j i ↔ if j = k then h'.idx = some i else s.Holds j i := by
  unfold Holds
  rw [getElem?_move hk hs j]
  split_ifs <;> simp

theorem serves_move (hip : h'.clientIp = h.clientIp) (j i : ℕ) :
    s'.Serves config j i ↔ s.Serves config j i := by
  unfold Serves
  rw [getElem?_move hk hs j]
  split_ifs with hjk
  · subst hjk
    simp [hk, hip]
  · rfl

/-- The handler keeps its slot, or goes on without one. -/
theorem Slots.keep (hinv : Slots config s) (hip : h'.clientIp = h.clientIp) (hidx : h'.idx = h.idx)
    (hactive : s'.active = s.active) : Slots config s' := by
  have hsame : ∀ j i, s'.Holds j i ↔ s.Holds j i := by
    intro j i
    rw [holds_move hk hs, hidx, ← holds_self hk]
    split_ifs with hjk
    · rw [hjk]
    · rfl
  refine ⟨fun j j' i hj hj' => ?_, fun j i hj => ?_, fun i => ?_⟩
  · exact hinv.unique j j' i ((hsame j i).1 hj) ((hsame j' i).1 hj')
  · exact (serves_move hk hs hip j i).2 (hinv.serves j i ((hsame j i).1 hj))
  · simp only [hactive, hsame, hinv.active]

/-- It gets a free slot. -/
theorem Slots.take (hinv : Slots config s) (hip : h'.clientIp = h.clientIp) {n : ℕ}
    (hidx : h.idx = none) (hidx' : h'.idx = some n) (hfree : s.active n = false)
    (hfits : config.data[n]? = some h.clientIp)
    (hactive : s'.active = Function.update s.active n true) : Slots config s' := by
  have hnone : ∀ j, ¬s.Holds j n := fun j hj => by
    rw [(hinv.active n).2 ⟨j, hj⟩] at hfree
    cases hfree
  have hmove : ∀ j i, s'.Holds j i ↔ s.Holds j i ∨ j = k ∧ i = n := by
    intro j i
    rw [holds_move hk hs, hidx', Option.some.injEq]
    split_ifs with hjk
    · subst hjk
      simp [holds_self hk, hidx, eq_comm]
    · simp [hjk]
  refine ⟨fun j j' i hj hj' => ?_, fun j i hj => ?_, fun i => ?_⟩
  · rcases (hmove j i).1 hj with hj | ⟨rfl, rfl⟩ <;> rcases (hmove j' i).1 hj' with hj' | ⟨rfl, hi⟩
    · exact hinv.unique j j' i hj hj'
    · exact absurd (hi ▸ hj) (hnone j)
    · exact absurd hj' (hnone j')
    · rfl
  · rw [serves_move hk hs hip]
    rcases (hmove j i).1 hj with hj | ⟨rfl, rfl⟩
    · exact hinv.serves j i hj
    · exact ⟨h, hk, hfits⟩
  · by_cases hin : i = n
    · subst hin
      rw [hactive, Function.update_self]
      exact iff_of_true rfl ⟨k, (hmove k i).2 (.inr ⟨rfl, rfl⟩)⟩
    · rw [hactive, Function.update_of_ne hin, hinv.active]
      simp [hmove, hin]

/-- It gives its slot back. -/
theorem Slots.release (hinv : Slots config s) (hip : h'.clientIp = h.clientIp) {n : ℕ}
    (hidx : h.idx = some n) (hidx' : h'.idx = none)
    (hactive : s'.active = Function.update s.active n false) : Slots config s' := by
  have hkn : s.Holds k n := (holds_self hk n).2 hidx
  have hmove : ∀ j i, s'.Holds j i ↔ s.Holds j i ∧ j ≠ k := by
    intro j i
    rw [holds_move hk hs, hidx']
    split_ifs with hjk <;> simp [hjk]
  refine ⟨fun j j' i hj hj' => ?_, fun j i hj => ?_, fun i => ?_⟩
  · exact hinv.unique j j' i ((hmove j i).1 hj).1 ((hmove j' i).1 hj').1
  · exact (serves_move hk hs hip j i).2 (hinv.serves j i ((hmove j i).1 hj).1)
  · by_cases hin : i = n
    · subst hin
      rw [hactive, Function.update_self]
      refine iff_of_false nofun ?_
      rintro ⟨j, hj⟩
      obtain ⟨hj, hjk⟩ := (hmove j i).1 hj
      exact hjk (hinv.unique j k i hj hkn)
    · rw [hactive, Function.update_of_ne hin, hinv.active]
      constructor
      · rintro ⟨j, hj⟩
        refine ⟨j, (hmove j i).2 ⟨hj, fun hjk => hin ?_⟩⟩
        subst hjk
        exact Option.some.inj (((holds_self hk i).1 hj).symm.trans hidx)
      · rintro ⟨j, hj⟩
        exact ⟨j, ((hmove j i).1 hj).1⟩

/-- A clean step keeps the invariant. -/
theorem Slots.move (hinv : Slots config s) (hip : h'.clientIp = h.clientIp) {e : Event}
    (hchange : Change config s s' e h h') (he : Clean s e) : Slots config s' := by
  cases hchange with
  | keep hidx hactive => exact hinv.keep hk hs hip hidx hactive
  | take n hidx hidx' hfree hfits hactive =>
    exact hinv.take hk hs hip hidx hidx' hfree hfits hactive
  | release n hidx hidx' hactive => exact hinv.release hk hs hip hidx hidx' hactive
  | leak n hidx hidx' hactive hleak => exact absurd he hleak

/-- A handler that ends without releasing its slot leaves it active, with nobody to hold it. -/
theorem Slots.not_accounted (hinv : Slots config s) (hexited : s'.exited = false) {e : Event}
    (hchange : Change config s s' e h h') (he : ¬Clean s e) : ¬Accounted config s' := by
  cases hchange with
  | keep hidx hactive hclean => exact absurd hclean he
  | take n hidx hidx' hfree hfits hactive hclean => exact absurd hclean he
  | release n hidx hidx' hactive hclean => exact absurd hclean he
  | leak n hidx hidx' hactive =>
    rintro (hex | hacc)
    · rw [hexited] at hex
      cases hex
    · have hkn : s.Holds k n := ⟨h, hk, hidx⟩
      obtain ⟨j, hj, -⟩ := (hacc n).1 (by rw [hactive, hinv.active]; exact ⟨k, hkn⟩)
      rw [holds_move hk hs, hidx'] at hj
      split_ifs at hj with hjk
      exact hjk (hinv.unique j k n hj hkn)

end Move

/-- A new handler holds nothing. -/
theorem Slots.accept (hinv : Slots config s) (ip : List Char) :
    Slots config { s with handlers := s.handlers ++ [⟨ip, .created, []⟩] } := by
  have hget : ∀ j : ℕ, (s.handlers ++ [(⟨ip, .created, []⟩ : Handler)])[j]? = s.handlers[j]? ∨
      (s.handlers[j]? = none ∧
        ∀ h, (s.handlers ++ [(⟨ip, .created, []⟩ : Handler)])[j]? = some h → h.idx = none) := by
    intro j
    by_cases hj : j < s.handlers.length
    · exact .inl (List.getElem?_append_left hj)
    · refine .inr ⟨List.getElem?_eq_none (by omega), fun h hh => ?_⟩
      rw [List.getElem?_append_right (by omega)] at hh
      obtain rfl := List.mem_singleton.1 (List.mem_of_getElem? hh)
      rfl
  have hholds : ∀ j i, Holds { s with handlers := s.handlers ++ [⟨ip, .created, []⟩] } j i ↔
      s.Holds j i := by
    intro j i
    unfold Holds
    rcases hget j with hj | ⟨hj, hnew⟩
    · simp only [hj]
    · refine iff_of_false (fun ⟨h, hh, hidx⟩ => ?_) fun ⟨h, hh, _⟩ => ?_
      · rw [hnew h hh] at hidx
        cases hidx
      · rw [hj] at hh
        cases hh
  refine ⟨fun j j' i hj hj' => ?_, fun j i hj => ?_, fun i => ?_⟩
  · exact hinv.unique j j' i ((hholds j i).1 hj) ((hholds j' i).1 hj')
  · have hold := (hholds j i).1 hj
    obtain ⟨h, hh, hip⟩ := hinv.serves j i hold
    refine ⟨h, ?_, hip⟩
    rcases hget j with hj' | ⟨hj', -⟩
    · exact hj'.trans hh
    · rw [hj'] at hh
      cases hh
  · simp only [hholds, hinv.active]

/-- A step is a new connection, the end of the process, or a handler going on. -/
theorem step_cases {e : Event} (hs : step config s e = some s') :
    s.exited = false ∧
      ((∃ ip, s' = { s with handlers := s.handlers ++ [⟨ip, .created, []⟩] } ∧ Clean s e) ∨
        (s'.exited = true ∧ Clean s e) ∨
        ∃ k h h', s.handlers[k]? = some h ∧ s'.handlers = s.handlers.set k h' ∧
          h'.clientIp = h.clientIp ∧ s'.exited = false ∧
          Change config s s' e h h') := by
  unfold step at hs
  split_ifs at hs with hex
  have hex : s.exited = false := by simpa using hex
  have hhandler : ∀ k, (∀ j, e = .parse j → j = k) →
      (s.handlers[k]?.bind fun h => s.handlerStep config k h e) = some s' →
      ∃ k h h', s.handlers[k]? = some h ∧ s'.handlers = s.handlers.set k h' ∧
        h'.clientIp = h.clientIp ∧ s'.exited = false ∧
        Change config s s' e h h' := by
    intro k hek hs
    obtain ⟨h, hk, hs⟩ := Option.bind_eq_some_iff.1 hs
    obtain ⟨h', hset, hip, hex', hchange⟩ := handlerStep_cases hk hek hs
    exact ⟨k, h, h', hk, hset, hip, hex'.trans hex, hchange⟩
  refine ⟨hex, ?_⟩
  cases e with
  | accept ip =>
    obtain rfl := Option.some.inj hs
    exact .inl ⟨ip, rfl, trivial⟩
  | exit =>
    obtain rfl := Option.some.inj hs
    exact .inr (.inl ⟨rfl, trivial⟩)
  | parse k =>
    refine .inr (.inr (hhandler k (fun j hj => ?_) hs))
    cases hj
    rfl
  | register k | readPort k | readCommand k | execute k =>
    refine .inr (.inr (hhandler k (fun j hj => ?_) hs))
    cases hj

/-- Slots are accounted for in every state of a run if and only if all its steps are clean. -/
theorem accounted_iff (config : Config) (es : List Event)
    (hr : (run (step config) init es).isSome) :
    Along (step config) (Accounted config) init es ↔ StepsMeet (step config) Clean init es := by
  refine along_iff_stepsMeet (I := fun s => s.exited = true ∨ Slots config s)
    (fun s h => h.elim .inl Slots.accounted) (fun s e s' h hc hs => ?_) (fun s e s' h hc hs => ?_)
    (.inr slots_init) hr
  · obtain ⟨hex, ⟨ip, rfl, -⟩ | ⟨hex', -⟩ | ⟨k, h₀, h', hk, hset, hip, -, hchange⟩⟩ := step_cases hs
    · exact .inr ((h.resolve_left (by simp [hex])).accept ip)
    · exact .inl hex'
    · exact .inr ((h.resolve_left (by simp [hex])).move hk hset hip hchange hc)
  · obtain ⟨hex, ⟨-, -, hclean⟩ | ⟨-, hclean⟩ | ⟨k, h₀, h', hk, hset, -, hex', hchange⟩⟩ := step_cases hs
    · exact absurd hclean hc
    · exact absurd hclean hc
    · exact (h.resolve_left (by simp [hex])).not_accounted hk hset hex' hchange hc

/-- A config with one machine. -/
def oneMachine : Config :=
  ⟨[['1', '0', '.', '0', '.', '0', '.', '1']], by decide⟩

/-- The machine connects, sends its port and a command, and closes the connection. -/
def session : List Event :=
  [.accept ['1', '0', '.', '0', '.', '0', '.', '1'], .register 0,
    .readPort 0 (some ['9', '0', '0', '0']), .readCommand 0 (some ['n', '1', '.', 'l', 's']),
    .parse 0, .parse 0, .execute 0 (fun _ => .output ['x']) false, .execute 0 (fun _ => .readError) false,
    .readCommand 0 (some [])]

theorem accounted_session : Along (step oneMachine) (Accounted oneMachine) init session :=
  (accounted_iff oneMachine session (by decide)).2 (by decide)

/-- Two clients at one machine's address, with the lines `ls|wc` and `ls|b1.c`. The handler of the
first goes on in the line of the second. -/
example : ((run (step ⟨[['1'], ['1']], by decide⟩) init
    [.accept ['1'], .register 0, .readPort 0 (some ['1']), .accept ['1'], .register 1,
      .readPort 1 (some ['1']), .readCommand 0 (some ['l', 's', '|', 'w', 'c']), .parse 0,
      .readCommand 1 (some ['l', 's', '|', 'b', '1', '.', 'c']), .parse 1]).map fun s =>
        s.nextToken 0) = some (some ['b', '1', '.', 'c']) := by
  decide

/-- The connection of the machine is reset before it has sent its port. -/
def failedRead : List Event :=
  [.accept ['1', '0', '.', '0', '.', '0', '.', '1'], .register 0, .readPort 0 none]

/-- The slot stays active, and nobody holds it. -/
theorem not_accounted_failedRead :
    ((run (step oneMachine) init failedRead).map fun s => (s.active 0, s.exited,
        s.handlers.map Handler.idx)) = some (true, false, [none]) ∧
      ¬∀ config es, (run (step config) init es).isSome →
        Along (step config) (Accounted config) init es := by
  have hrun : ((run (step oneMachine) init failedRead).map fun s => (s.active 0, s.exited,
      s.handlers.map Handler.idx)) = some (true, false, [none]) := by decide
  refine ⟨hrun, fun hall => ?_⟩
  obtain ⟨s, hr, hs⟩ := Option.map_eq_some_iff.1 hrun
  simp only [Prod.mk.injEq] at hs
  obtain ⟨hactive, hexited, hidx⟩ := hs
  rcases (hall oneMachine failedRead (by rw [hr]; rfl)).last hr with hex | hacc
  · rw [hexited] at hex
    cases hex
  · obtain ⟨k, ⟨h, hk, hh⟩, -⟩ := (hacc 0).1 hactive
    have hmem : some 0 ∈ s.handlers.map Handler.idx :=
      List.mem_map.2 ⟨h, List.mem_of_getElem? hk, hh⟩
    rw [hidx] at hmem
    exact absurd hmem (by decide)

end Server

end NetProg.Cluster
