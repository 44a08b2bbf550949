import NetProg.Cluster.Strtok

/-!
# What a thread builds while others parse

`view` is what a thread has built : its phase, and the machine and text of each command.
`alone` is the view of a thread that has the process to itself, after a number of calls of
`strtok`, and `alone_createCommandPipe` ties it to `createCommandPipe`. `LikeAlone` says
that every thread has what it would have alone, whatever the lines of the others are.

A step of a thread shows the meaning of the text behind the cursor (`view_step`). Alone,
that is the rest of the thread's own line. So a run keeps `LikeAlone` if and only if every
`strtok(NULL, "|")` finds a text that means the same as the rest of the caller's own line
(`FindsOwn`), which is what `likeAlone_iff` says for any number of threads. It does so as long
as the cursor is in the buffer of the caller (`findsOwn_of_inOwnBuffer`).
-/

namespace NetProg.Cluster

/-- What a thread has built. -/
structure View where
  phase : Phase
  pipe : List Command
deriving DecidableEq, Repr

/-- The view after a turn of the loop. -/
def View.turn (v : View) : Option (Option Command) → View
  | none => ⟨.done, v.pipe⟩
  | some none => ⟨.exited, v.pipe⟩
  | some (some cmd) => ⟨.running, v.pipe ++ [cmd]⟩

theorem View.turn_injective (v : View) : Function.Injective v.turn := by
  intro x y h
  rcases x with _ | _ | x <;> rcases y with _ | _ | y <;> simp_all [View.turn]

/-- A thread still has calls of `strtok` to make. -/
def Phase.Active (p : Phase) : Prop :=
  p = .idle ∨ p = .running

namespace Process

variable {ι : Type*}

/-- What thread `t` has built, read from memory. -/
def view (s : Process ι) (t : ι) : View :=
  ⟨(s.thread t).phase,
    (s.thread t).pipe.map fun c => (c.machine, cstr (s.buff c.buf) c.off)⟩

/-- Commands are strings in front of the cursor, and no thread that has not started has been
written to. -/
structure MemInv (lines : ι → List Char) (s : Process ι) : Prop where
  idle : ∀ t, (s.thread t).phase = .idle →
    s.buff t = lines t ∧ (s.thread t).calls = 0
  running : ∀ t, (s.thread t).phase = .running → s.saved.isSome
  saved : ∀ u i, s.saved = some (u, i) → (s.thread u).phase ≠ .idle
  pointer : ∀ t, ∀ c ∈ (s.thread t).pipe, (s.thread c.buf).phase ≠ .idle ∧
    ∀ i, s.saved = some (c.buf, i) → c.off + (cstr (s.buff c.buf) c.off).length ≤ i

theorem memInv_start (lines : ι → List Char) : MemInv lines (start lines) where
  idle _ _ := ⟨rfl, rfl⟩
  running _ h := nomatch h
  saved _ _ h := nomatch h
  pointer _ _ h := nomatch h

/-- Where a turn of the loop begins, no command reaches. -/
theorem MemInv.pointer_le {lines : ι → List Char} {s : Process ι} (h : MemInv lines s) {t u : ι}
    {i : ℕ} (hcur : s.cursor t = some (u, i)) {t' : ι} {c : Cmd ι} (hc : c ∈ (s.thread t').pipe)
    (hu : c.buf = u) : c.off + (cstr (s.buff u) c.off).length ≤ i := by
  obtain ⟨hphase, hle⟩ := h.pointer t' c hc
  unfold cursor at hcur
  split at hcur
  · rename_i hidle
    obtain ⟨rfl, -⟩ := Prod.mk.injEq .. ▸ Option.some.inj hcur
    exact absurd (hu ▸ hidle) hphase
  · subst hu
    exact hle i hcur
  · cases hcur
  · cases hcur

/-- A buffer with a cursor belongs to a thread that has started, or to the one that starts. -/
theorem MemInv.started_of_cursor {lines : ι → List Char} {s : Process ι} {t u : ι} {i : ℕ}
    (h : MemInv lines s) (hcur : s.cursor t = some (u, i)) :
    (s.thread u).phase ≠ .idle ∨ u = t := by
  unfold cursor at hcur
  split at hcur
  · exact .inr (congrArg Prod.fst (Option.some.inj hcur)).symm
  · exact .inl (h.saved u i hcur)
  · cases hcur
  · cases hcur

/-- Only active threads have a cursor. -/
theorem MemInv.cursor_isSome {lines : ι → List Char} {s : Process ι} (h : MemInv lines s) {t : ι}
    (ht : (s.thread t).phase.Active) : (s.cursor t).isSome := by
  unfold cursor
  rcases ht with ht | ht
  · rw [ht]
    rfl
  · rw [ht]
    exact h.running t ht

/-- What is left of a line after `n` calls of `strtok`. -/
def restOf (line : List Char) (n : ℕ) : List Char :=
  afterToken^[n] (cstr line 0)

/-- The first call of a thread is for its own line. -/
theorem MemInv.scanned_idle {lines : ι → List Char} {s : Process ι} {t : ι} (hmem : MemInv lines s)
    (hidle : (s.thread t).phase = .idle) :
    s.scanned t = restOf (lines t) (s.thread t).calls := by
  obtain ⟨hbuff, hcalls⟩ := hmem.idle t hidle
  rw [scanned, cursor, hidle, hcalls]
  simp only [hbuff]
  rfl

variable [DecidableEq ι]

/-- A step is a turn of the loop at the cursor. -/
theorem step_cases {s s' : Process ι} {t : ι} (hstep : s.step t = some s') :
    ∃ u i r cur b, s.cursor t = some (u, i) ∧ loopTurn (s.buff u) i = (r, cur, b) ∧
      s'.buff = Function.update s.buff u b ∧ s'.saved = some (u, cur) ∧
      s'.thread t = (s.thread t).turn u r ∧ ∀ t', t' ≠ t → s'.thread t' = s.thread t' := by
  obtain ⟨⟨u, i⟩, hcur, rfl⟩ := Option.map_eq_some_iff.1 hstep
  exact ⟨u, i, _, _, _, hcur, rfl, rfl, rfl, Function.update_self ..,
    fun t' ht' => Function.update_of_ne ht' ..⟩

/-- A step in terms of the text behind the cursor. Strings that commands point to are kept. -/
theorem MemInv.step_cases {lines : ι → List Char} {s s' : Process ι} {t : ι} (h : MemInv lines s)
    (hstep : s.step t = some s') :
    ∃ u i r cur, s.cursor t = some (u, i) ∧ s'.saved = some (u, cur) ∧
      s'.thread t = (s.thread t).turn u r ∧ (∀ t', t' ≠ t → s'.thread t' = s.thread t') ∧
      (∀ t', t' ≠ u → s'.buff t' = s.buff t') ∧
      (∀ t', ∀ c ∈ (s.thread t').pipe, cstr (s'.buff c.buf) c.off = cstr (s.buff c.buf) c.off) ∧
      (r.map fun c => c.map fun c => (c.1, cstr (s'.buff u) c.2)) = meaning (s.scanned t) ∧
      cstr (s'.buff u) cur = afterToken (s.scanned t) ∧
      (∀ c, r = some (some c) → c.2 + (cstr (s'.buff u) c.2).length ≤ cur) ∧ i ≤ cur := by
  obtain ⟨u, i, r, cur, b, hcur, hturn, hbuff, hsaved, hthread, hother⟩ :=
    Process.step_cases hstep
  obtain ⟨r, cur, b, heq, hmean, hrest, hkeep, hle, hile⟩ := loopTurn_spec (s.buff u) i
  obtain ⟨rfl, rfl, rfl⟩ : r = _ ∧ cur = _ ∧ b = _ := by simpa [heq] using hturn
  have hscan : s.scanned t = cstr (s.buff u) i := by rw [scanned, hcur]
  have hown : s'.buff u = b := by rw [hbuff, Function.update_self]
  have hbuffs : ∀ t', t' ≠ u → s'.buff t' = s.buff t' := fun t' ht' => by
    rw [hbuff, Function.update_of_ne ht']
  rw [hscan]
  refine ⟨u, i, r, cur, hcur, hsaved, hthread, hother, hbuffs, ?_, hown ▸ hmean, hown ▸ hrest,
    hown ▸ hle, hile⟩
  intro t' c hc
  by_cases hcu : c.buf = u
  · rw [hcu, hown]
    exact hkeep _ (h.pointer_le hcur hc hcu)
  · rw [hbuffs _ hcu]

/-- Every step keeps the invariant. -/
theorem memInv_step {lines : ι → List Char} {s s' : Process ι} {t : ι} (h : MemInv lines s)
    (hstep : s.step t = some s') : MemInv lines s' := by
  obtain ⟨u, i, r, cur, hcur, hsaved, hthread, hother, hbuff, hstr, -, -, hle, hile⟩ :=
    h.step_cases hstep
  have hu := h.started_of_cursor hcur
  have hphase : (s'.thread t).phase ≠ .idle := by
    rw [hthread]
    rcases r with _ | _ | ⟨machine, off⟩ <;> simp [Thread.turn]
  have hstarted : ∀ t', (s.thread t').phase ≠ .idle ∨ t' = t → (s'.thread t').phase ≠ .idle := by
    intro t' ht'
    by_cases htt : t' = t
    · exact htt ▸ hphase
    · rw [hother t' htt]
      exact ht'.resolve_right htt
  refine ⟨?_, fun _ _ => hsaved ▸ rfl, ?_, ?_⟩
  · -- a thread that has not started is not the one at the cursor
    intro t' ht'
    have htt : t' ≠ t := fun heqt => hstarted t' (.inr heqt) ht'
    have htu : t' ≠ u := fun heqt => hstarted u hu (heqt ▸ ht')
    rw [hother t' htt] at ht' ⊢
    rw [hbuff t' htu]
    exact h.idle t' ht'
  · intro u' i' hi'
    obtain ⟨rfl, -⟩ : u = u' ∧ cur = i' := by simpa [hsaved] using hi'
    exact hstarted u hu
  · intro t' c hc
    by_cases hold : c ∈ (s.thread t').pipe
    · refine ⟨hstarted c.buf (.inl (h.pointer t' c hold).1), fun i' hi' => ?_⟩
      obtain ⟨hcu, rfl⟩ : u = c.buf ∧ cur = i' := by simpa [hsaved] using hi'
      rw [hstr t' c hold, ← hcu]
      exact (h.pointer_le hcur hold hcu.symm).trans hile
    · -- the command of this turn
      obtain rfl : t' = t := by
        by_contra htt
        exact hold (hother t' htt ▸ hc)
      rw [hthread] at hc
      rcases r with _ | _ | ⟨machine, off⟩
      · exact absurd hc hold
      · exact absurd hc hold
      · obtain rfl : c = ⟨machine, u, off⟩ := by
          rcases List.mem_append.1 hc with hc | hc
          · exact absurd hc hold
          · exact List.mem_singleton.1 hc
        refine ⟨hstarted u hu, fun i' hi' => ?_⟩
        obtain rfl : cur = i' := by simpa [hsaved] using hi'
        exact hle _ rfl

/-- What a step does : the thread's view takes in the meaning of the text behind the cursor, the
views of the others stay, and the saved cursor is on the rest of that text. -/
theorem view_step {lines : ι → List Char} {s s' : Process ι} {t : ι} (h : MemInv lines s)
    (hstep : s.step t = some s') :
    MemInv lines s' ∧ s'.view t = (s.view t).turn (meaning (s.scanned t)) ∧
      (∀ t', t' ≠ t → s'.view t' = s.view t' ∧ s'.thread t' = s.thread t') ∧
      (s'.thread t).calls = (s.thread t).calls + 1 ∧
      ∃ u i, s'.saved = some (u, i) ∧ cstr (s'.buff u) i = afterToken (s.scanned t) := by
  obtain ⟨u, i, r, cur, -, hsaved, hthread, hother, -, hstr, hmean, hrest, -⟩ := h.step_cases hstep
  refine ⟨memInv_step h hstep, ?_, ?_, ?_, u, cur, hsaved, hrest⟩
  · have hmap : (s.thread t).pipe.map (fun c => (c.machine, cstr (s'.buff c.buf) c.off)) =
        (s.view t).pipe :=
      List.map_congr_left fun c hc => by rw [hstr t c hc]
    rw [← hmean, view, hthread]
    rcases r with _ | _ | ⟨machine, off⟩ <;> simp [Thread.turn, View.turn, hmap]
  · intro t' htt
    refine ⟨?_, hother t' htt⟩
    rw [view, view, hother t' htt]
    congr 1
    exact List.map_congr_left fun c hc => by rw [hstr t' c hc]
  · rw [hthread]
    rcases r with _ | _ | ⟨machine, off⟩ <;> rfl

/-- A thread that makes a call is active. -/
theorem active_of_step {s s' : Process ι} {t : ι} (hstep : s.step t = some s') :
    (s.thread t).phase.Active := by
  obtain ⟨c, hcur, -⟩ := Option.map_eq_some_iff.1 hstep
  unfold cursor at hcur
  split at hcur
  · exact .inl ‹_›
  · exact .inr ‹_›
  · cases hcur
  · cases hcur

/-! ## A thread alone -/

/-- What a thread has built after `n` calls when it has the process to itself. -/
def alone (line : List Char) (n : ℕ) : Option View :=
  (run step (start fun _ : Unit => line) (List.replicate n ())).map fun s => s.view ()

/-- Alone, a thread finds what is left of its line. -/
theorem scanned_alone {line : List Char} {n : ℕ} {s : Process Unit}
    (hr : run step (start fun _ : Unit => line) (List.replicate n ()) = some s) :
    MemInv (fun _ => line) s ∧
      ((s.thread ()).phase.Active → s.scanned () = restOf line n) := by
  induction n generalizing s with
  | zero =>
    obtain rfl := Option.some.inj hr
    exact ⟨memInv_start _, fun _ => rfl⟩
  | succ n ih =>
    rw [List.replicate_succ', run_append, Option.bind_eq_some_iff] at hr
    obtain ⟨s₀, hr₀, hlast⟩ := hr
    obtain ⟨s', hstep, hs'⟩ := run_cons_eq_some.1 hlast
    obtain rfl := Option.some.inj hs'
    obtain ⟨hmem, hscan⟩ := ih hr₀
    obtain ⟨hmem', hview, -, -, ⟨⟩, i, hsaved, hrest⟩ := view_step hmem hstep
    refine ⟨hmem', fun hact => ?_⟩
    have hrun : (s'.thread ()).phase = .running := by
      refine hact.resolve_left fun hidle => ?_
      have hphase : (s'.view ()).phase = .idle := hidle
      rw [hview] at hphase
      revert hphase
      rcases meaning (s₀.scanned ()) with _ | _ | cmd <;> simp [View.turn]
    rw [scanned, cursor, hrun]
    simp only [hsaved]
    rw [hrest, hscan (active_of_step hstep), restOf, restOf, Function.iterate_succ_apply']

/-- Alone, the next call shows the meaning of what is left of the line. -/
theorem alone_succ {line : List Char} {n : ℕ} {v : View} (hv : alone line n = some v)
    (hact : v.phase.Active) : alone line (n + 1) = some (v.turn (meaning (restOf line n))) := by
  obtain ⟨s, hr, rfl⟩ := Option.map_eq_some_iff.1 hv
  obtain ⟨hmem, hscan⟩ := scanned_alone hr
  obtain ⟨c, hcur⟩ := Option.isSome_iff_exists.1 (hmem.cursor_isSome hact)
  obtain ⟨s', hstep⟩ : ∃ s', s.step () = some s' := ⟨_, by rw [step, hcur, Option.map_some]⟩
  obtain ⟨-, hview, -⟩ := view_step hmem hstep
  rw [alone, List.replicate_succ', run_append, hr, Option.bind_some, run_cons, hstep,
    Option.bind_some, run_nil, Option.map_some, hview, hscan hact]

/-- Alone, a thread builds the pipeline of its line. -/
theorem alone_createCommandPipe (line : List Char) :
    ∃ n v, alone line n = some v ∧
      match createCommandPipe (cstr line 0) with
      | none => v.phase = .exited
      | some cmds => v = ⟨.done, cmds⟩ := by
  have hrest : ∀ (toks : List (List Char)) (n : ℕ) (v : View), tokens (restOf line n) = toks →
      alone line n = some v → v.phase.Active → ∃ m v', alone line m = some v' ∧
        match toks.mapM createCommand with
        | none => v'.phase = .exited
        | some cmds => v' = ⟨.done, v.pipe ++ cmds⟩ := by
    intro toks
    induction toks with
    | nil =>
      intro n v htoks hv hact
      rw [tokens_eq] at htoks
      have hnone : firstToken (restOf line n) = none := by
        cases hf : firstToken (restOf line n) with
        | none => rfl
        | some x => simp [hf] at htoks
      refine ⟨n + 1, _, alone_succ hv hact, ?_⟩
      simp [meaning, hnone, View.turn]
    | cons tok toks ih =>
      intro n v htoks hv hact
      rw [tokens_eq] at htoks
      obtain ⟨rest, hfirst, htoks⟩ : ∃ rest, firstToken (restOf line n) = some (tok, rest) ∧
          tokens rest = toks := by
        cases hf : firstToken (restOf line n) with
        | none => simp [hf] at htoks
        | some x =>
          obtain ⟨rfl, rfl⟩ : x.1 = tok ∧ tokens x.2 = toks := by simpa [hf] using htoks
          exact ⟨x.2, rfl, rfl⟩
      have hsucc := alone_succ hv hact
      have hmean : meaning (restOf line n) = some (createCommand tok) := by
        rw [meaning, hfirst, Option.map_some]
      rw [hmean] at hsucc
      rw [List.mapM_cons]
      cases hcmd : createCommand tok with
      | none =>
        rw [hcmd] at hsucc
        exact ⟨n + 1, _, hsucc, rfl⟩
      | some cmd =>
        rw [hcmd] at hsucc
        have hleft : restOf line (n + 1) = rest := by
          rw [restOf, Function.iterate_succ_apply', ← restOf, afterToken, hfirst]
          rfl
        obtain ⟨m, v', hm, hv'⟩ := ih (n + 1) _ (hleft ▸ htoks) hsucc (.inr rfl)
        refine ⟨m, v', hm, ?_⟩
        cases hmap : toks.mapM createCommand with
        | none => simpa [hmap] using hv'
        | some cmds => simpa [hmap, View.turn] using hv'
  exact hrest _ 0 ⟨.idle, []⟩ rfl rfl (.inl rfl)

/-! ## Threads together -/

/-- Every thread has built what it would have built alone. -/
def LikeAlone (lines : ι → List Char) (s : Process ι) : Prop :=
  ∀ t, alone (lines t) (s.thread t).calls = some (s.view t)

/-- A call for NULL finds a text that means the same as what is left of the caller's line. -/
def FindsOwn (lines : ι → List Char) (s : Process ι) (t : ι) : Prop :=
  (s.thread t).phase = .running →
    meaning (s.scanned t) = meaning (restOf (lines t) (s.thread t).calls)

instance (lines : ι → List Char) (s : Process ι) (t : ι) : Decidable (FindsOwn lines s t) :=
  inferInstanceAs (Decidable (_ → _))

/-- What the caller builds is what it would build alone if and only if it finds its own text. -/
theorem likeAlone_step {lines : ι → List Char} {s s' : Process ι} {t : ι} (hmem : MemInv lines s)
    (h : LikeAlone lines s) (hstep : s.step t = some s') :
    LikeAlone lines s' ↔ FindsOwn lines s t := by
  obtain ⟨-, hview, hothers, hcalls, -⟩ := view_step hmem hstep
  have hact := active_of_step hstep
  have hsucc := alone_succ (h t) hact
  have hself : alone (lines t) (s'.thread t).calls = some (s'.view t) ↔
      meaning (s.scanned t) = meaning (restOf (lines t) (s.thread t).calls) := by
    rw [hcalls, hsucc, hview, Option.some.injEq, (View.turn_injective _).eq_iff, eq_comm]
  have hown : FindsOwn lines s t ↔
      meaning (s.scanned t) = meaning (restOf (lines t) (s.thread t).calls) := by
    refine ⟨fun hf => ?_, fun hf _ => hf⟩
    rcases hact with hidle | hrun
    · rw [hmem.scanned_idle hidle]
    · exact hf hrun
  rw [hown, ← hself]
  refine ⟨fun h' => h' t, fun ht t' => ?_⟩
  by_cases htt : t' = t
  · exact htt ▸ ht
  · obtain ⟨hv, hth⟩ := hothers t' htt
    rw [hv, hth]
    exact h t'

/-- In any order of calls, the threads build what they would build alone exactly when every
`strtok(NULL, "|")` finds a text that means what is left of the caller's own line. -/
theorem likeAlone_iff (lines : ι → List Char) (ts : List ι)
    (hr : (run step (start lines) ts).isSome) :
    Along step (LikeAlone lines) (start lines) ts ↔
      StepsMeet step (FindsOwn lines) (start lines) ts := by
  refine along_iff_stepsMeet (I := fun s => MemInv lines s ∧ LikeAlone lines s) (fun _ h => h.2)
    (fun s t s' h hc hstep => ?_) (fun s t s' h hc hstep h' => ?_)
    ⟨memInv_start lines, fun _ => rfl⟩ hr
  · exact ⟨(view_step h.1 hstep).1, (likeAlone_step h.1 h.2 hstep).2 hc⟩
  · exact hc ((likeAlone_step h.1 h.2 hstep).1 h')

/-- The cursor is in the buffer of the caller. -/
def InOwnBuffer (s : Process ι) (t : ι) : Prop :=
  (s.thread t).phase = .running → ∃ i, s.saved = some (t, i)

/-- When every `strtok(NULL, "|")` starts in the buffer of its caller, it finds the rest of the
caller's line. -/
theorem findsOwn_of_inOwnBuffer {lines : ι → List Char} {ts : List ι}
    (h : StepsMeet step InOwnBuffer (start lines) ts) :
    StepsMeet step (FindsOwn lines) (start lines) ts := by
  -- in the buffer of a thread, the cursor is on what is left of its line
  let I := fun s : Process ι => MemInv lines s ∧
    ∀ u i, s.saved = some (u, i) → cstr (s.buff u) i = restOf (lines u) (s.thread u).calls
  have hrunning : ∀ s t, I s → InOwnBuffer s t → (s.thread t).phase = .running →
      (∃ i, s.cursor t = some (t, i)) ∧ s.scanned t = restOf (lines t) (s.thread t).calls := by
    intro s t hI hc hrun
    obtain ⟨i, hi⟩ := hc hrun
    have hcur : s.cursor t = some (t, i) := by rw [cursor, hrun, hi]
    refine ⟨⟨i, hcur⟩, ?_⟩
    rw [scanned, hcur]
    exact hI.2 t i hi
  refine StepsMeet.imp (I := I) (fun s t s' hI hc hstep => ?_)
    (fun s t hI hc hrun => congrArg meaning (hrunning s t hI hc hrun).2)
    ⟨memInv_start lines, nofun⟩ h
  obtain ⟨hcur, hscan⟩ : (∃ i, s.cursor t = some (t, i)) ∧
      s.scanned t = restOf (lines t) (s.thread t).calls := by
    rcases active_of_step hstep with hidle | hrun
    · exact ⟨⟨0, by rw [cursor, hidle]⟩, hI.1.scanned_idle hidle⟩
    · exact hrunning s t hI hc hrun
  obtain ⟨hmem', -, -, hcalls, u, i, hsaved, hrest⟩ := view_step hI.1 hstep
  obtain ⟨u', _, _, cur, _, hcur', -, -, hsaved', -⟩ := step_cases hstep
  obtain ⟨rfl, rfl⟩ : u = u' ∧ i = cur := by simpa [hsaved] using hsaved'
  obtain rfl : t = u := by
    obtain ⟨j, hj⟩ := hcur
    exact congrArg Prod.fst (Option.some.inj (hj.symm.trans hcur'))
  refine ⟨hmem', fun u' i' hu' => ?_⟩
  obtain ⟨rfl, rfl⟩ : t = u' ∧ i = i' := by simpa [hsaved] using hu'
  rw [hrest, hscan, hcalls, restOf, restOf, Function.iterate_succ_apply']

/-- The line of one client is `ls|wc`, the line of the other is `n1.rm x|n2.id`. -/
def twoLines : Bool → List Char
  | false => ['l', 's', '|', 'w', 'c']
  | true => ['n', '1', '.', 'r', 'm', ' ', 'x', '|', 'n', '2', '.', 'i', 'd']

/-- One line after the other. -/
theorem likeAlone_twoLines :
    Along step (LikeAlone twoLines) (start twoLines) [false, false, false, true, true, true] :=
  (likeAlone_iff twoLines _ (by decide)).2 (by decide)

/-- The second call of the first thread comes after the first call of the second thread, and
finds `n2.id`. -/
theorem not_likeAlone_twoLines :
    (run step (start twoLines) [false, true, false]).map (fun s => s.view false) =
        some ⟨.running, [(-1, ['l', 's']), (2, ['i', 'd'])]⟩ ∧
      alone (twoLines false) 2 = some ⟨.running, [(-1, ['l', 's']), (-1, ['w', 'c'])]⟩ ∧
      ¬∀ ts, (run step (start twoLines) ts).isSome →
        Along step (LikeAlone twoLines) (start twoLines) ts := by
  have hview : (run step (start twoLines) [false, true, false]).map
      (fun s => (s.view false, (s.thread false).calls)) =
        some (⟨.running, [(-1, ['l', 's']), (2, ['i', 'd'])]⟩, 2) := by decide
  have halone : alone (twoLines false) 2 =
      some ⟨.running, [(-1, ['l', 's']), (-1, ['w', 'c'])]⟩ := by decide
  obtain ⟨s, hr, hs⟩ := Option.map_eq_some_iff.1 hview
  obtain ⟨hv, hcalls⟩ := Prod.mk.injEq .. ▸ hs
  refine ⟨by rw [hr, Option.map_some, hv], halone, fun h => ?_⟩
  have hlike := (h _ (by rw [hr]; rfl)).last hr false
  rw [hcalls, hv, halone] at hlike
  exact absurd hlike (by decide)

end Process

end NetProg.Cluster
