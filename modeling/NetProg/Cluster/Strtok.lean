import NetProg.Lib.Run
import NetProg.Cluster.Parse

/-!
# Threads that share `strtok`

Each handler thread calls `createCommandPipe` on a buffer of its own, but `strtok` keeps
one saved cursor for the whole process. `strtok(buff, "|")` sets the cursor into the buffer
of the caller, and `strtok(NULL, "|")` goes on wherever the cursor is.

The model has the buffers, in which `strtok` and the loop write zero bytes, and the saved
cursor. A step is one call of `strtok` by one thread, with the rest of the loop body behind
it. A command points into the buffer its token was found in, and its text is what is read
there. `view` is what a thread has built, and `step_view` says what a step does to it : it
depends on the text behind the cursor alone, and no step changes what other threads have.
-/

namespace NetProg.Cluster

/-! ## Strings in memory -/

/-- The string at an offset. -/
def cstr (b : List Char) (i : ℕ) : List Char :=
  (b.drop i).takeWhile fun c => c != nul

/-- `strtok` on the string at the offset `i` of `b` : the offset of the token, the offset that
is saved, and the buffer. -/
def strtok (b : List Char) (i : ℕ) : Option ℕ × ℕ × List Char :=
  let start := i + ((cstr b i).takeWhile fun c => c == '|').length
  let stop := start + ((cstr b start).takeWhile fun c => c != '|').length
  if cstr b start = [] then (none, start, b)
  else if b.getD stop nul = nul then (some start, stop, b)
  else (some start, stop + 1, b.set stop nul)

/-- Writing a zero byte behind a string keeps it. -/
theorem cstr_set {b : List Char} {i j : ℕ} (h : i + (cstr b i).length ≤ j) :
    cstr (b.set j nul) i = cstr b i := by
  unfold cstr at *
  rw [List.drop_set, if_neg (by omega)]
  generalize b.drop i = s at *
  obtain ⟨k, rfl⟩ : ∃ k, j = i + k := ⟨j - i, by omega⟩
  rw [Nat.add_sub_cancel_left]
  have hk : (s.takeWhile fun c => c != nul).length ≤ k := by omega
  clear h
  induction s generalizing k with
  | nil => rfl
  | cons c s ih =>
    cases k with
    | zero =>
      by_cases hc : (c != nul) = true
      · rw [List.takeWhile_cons, if_pos hc] at hk
        simp at hk
      · rw [List.set_cons_zero, List.takeWhile_cons, List.takeWhile_cons, if_neg hc, if_neg (by simp)]
    | succ k =>
      rw [List.set_cons_succ, List.takeWhile_cons, List.takeWhile_cons]
      by_cases hc : (c != nul) = true
      · rw [if_pos hc, if_pos hc, ih k (by simpa [List.takeWhile_cons, hc] using hk)]
      · rw [if_neg hc, if_neg hc]

/-- A part of a string that starts inside it. -/
theorem cstr_add {b : List Char} {i n : ℕ} (h : n ≤ (cstr b i).length) :
    cstr b (i + n) = (cstr b i).drop n := by
  unfold cstr at *
  rw [← List.drop_drop]
  generalize b.drop i = s at *
  induction s generalizing n with
  | nil => simp
  | cons c s ih =>
    cases n with
    | zero => rfl
    | succ n =>
      rw [List.takeWhile_cons] at h ⊢
      by_cases hc : (c != nul) = true
      · rw [if_pos hc] at h ⊢
        exact ih (by simpa using h)
      · rw [if_neg hc] at h
        simp at h

/-- Cutting a string off. -/
theorem cstr_set_inside {b : List Char} {i n : ℕ} (h : n ≤ (cstr b i).length) :
    cstr (b.set (i + n) nul) i = (cstr b i).take n := by
  unfold cstr at *
  rw [List.drop_set, if_neg (by omega), Nat.add_sub_cancel_left]
  generalize b.drop i = s at *
  induction s generalizing n with
  | nil => simp
  | cons c s ih =>
    cases n with
    | zero => simp
    | succ n =>
      rw [List.takeWhile_cons] at h ⊢
      by_cases hc : (c != nul) = true
      · rw [if_pos hc] at h ⊢
        rw [List.set_cons_succ, List.takeWhile_cons, if_pos hc, List.take_succ_cons,
          ih (by simpa using h)]
      · rw [if_neg hc] at h
        simp at h

/-- Writing in front of a string keeps it. -/
theorem cstr_set_of_lt {b : List Char} {i j : ℕ} (h : j < i) : cstr (b.set j nul) i = cstr b i := by
  unfold cstr
  rw [List.drop_set, if_pos h]

theorem cstr_eq_nil_iff {b : List Char} {i : ℕ} : cstr b i = [] ↔ b.getD i nul = nul := by
  unfold cstr
  rw [List.getD_eq_getElem?_getD, ← List.head?_drop]
  cases b.drop i with
  | nil => simp
  | cons c s => simp [List.takeWhile_cons]

/-- `strtok` on the text at its cursor : without a token nothing is written. Otherwise the
token is a string of its own, the cursor is behind it, on the rest of the text, and the
only byte written is the one behind the token. -/
theorem strtok_spec (b : List Char) (i : ℕ) :
    match firstToken (cstr b i) with
    | none => ∃ cur, strtok b i = (none, cur, b) ∧ i ≤ cur ∧ cstr b cur = []
    | some (tok, rest) => ∃ start cur b', strtok b i = (some start, cur, b') ∧ i ≤ start ∧
        cstr b' start = tok ∧ start + tok.length ≤ cur ∧ cstr b' cur = rest ∧
        (b' = b ∨ b' = b.set (start + tok.length) nul) := by
  have hsplit : ∀ (q : Char → Bool) (j : ℕ),
      cstr b (j + ((cstr b j).takeWhile q).length) = (cstr b j).dropWhile q := by
    intro q j
    rw [cstr_add (List.takeWhile_sublist _).length_le]
    nth_rewrite 2 [← (cstr b j).takeWhile_append_dropWhile (p := q)]
    exact List.drop_left
  have hlead := hsplit (fun c => c == '|') i
  simp only [strtok]
  generalize hstart : i + ((cstr b i).takeWhile fun c => c == '|').length = start at hlead
  by_cases hs : cstr b start = []
  · rw [firstToken_eq_none (hlead.symm.trans hs), if_pos hs]
    exact ⟨start, rfl, by omega, hs⟩
  · have hstop := hsplit (fun c => c != '|') start
    rw [firstToken_eq_some hlead.symm hs, if_neg hs]
    simp only
    generalize htok : ((cstr b start).takeWhile fun c => c != '|') = tok at hstop ⊢
    have hlen : tok.length ≤ (cstr b start).length := htok ▸ (List.takeWhile_sublist _).length_le
    have htake : (cstr b start).take tok.length = tok := by
      rw [← (cstr b start).takeWhile_append_dropWhile (p := fun c => c != '|'), htok]
      exact List.take_left
    by_cases hend : b.getD (start + tok.length) nul = nul
    · -- the last token
      have hnil := cstr_eq_nil_iff.2 hend
      rw [hnil] at hstop
      refine ⟨start, start + tok.length, b, by rw [if_pos hend], by omega, ?_, le_rfl, ?_, .inl rfl⟩
      · rw [← (cstr b start).takeWhile_append_dropWhile (p := fun c => c != '|'), htok, ← hstop,
          List.append_nil]
      · rw [hnil, ← hstop, List.tail_nil]
    · have hpos : 1 ≤ (cstr b (start + tok.length)).length :=
        List.length_pos_iff.2 fun hnil => hend (cstr_eq_nil_iff.1 hnil)
      refine ⟨start, start + tok.length + 1, b.set (start + tok.length) nul, by rw [if_neg hend],
        by omega, ?_, by omega, ?_, .inr rfl⟩
      · rw [cstr_set_inside hlen, htake]
      · rw [cstr_set_of_lt (by omega), cstr_add hpos, hstop, List.drop_one]

/-! ## One turn of the loop -/

/-- A call of `strtok` and the loop body behind it. The results are what came of it (no token,
`pthread_exit`, or a machine and the offset of a command), the saved offset and the buffer. -/
def loopTurn (b : List Char) (i : ℕ) : Option (Option (ℤ × ℕ)) × ℕ × List Char :=
  match strtok b i with
  | (none, cur, b) => (none, cur, b)
  | (some start, cur, b) =>
    let tok := cstr b start
    match parseToken tok with
    | none => (some none, cur, b)
    | some p =>
      (some (some (p.machine, start + p.skip)), cur,
        if p.trim then b.set (start + tok.length - 1) nul else b)

/-- What a text means to the next turn of the loop : there is no token, the token is not
parsable, or it is a command. -/
def meaning (s : List Char) : Option (Option Command) :=
  (firstToken s).map fun x => createCommand x.1

/-- A turn of the loop on the text at its cursor : what comes of it is the meaning of the text,
the cursor is on the rest of the text, and strings in front of the cursor are kept. -/
theorem loopTurn_spec (b : List Char) (i : ℕ) :
    ∃ r cur b', loopTurn b i = (r, cur, b') ∧
      (r.map fun c => c.map fun c => (c.1, cstr b' c.2)) = meaning (cstr b i) ∧
      cstr b' cur = afterToken (cstr b i) ∧
      (∀ j, j + (cstr b j).length ≤ i → cstr b' j = cstr b j) ∧
      (∀ c, r = some (some c) → c.2 + (cstr b' c.2).length ≤ cur) ∧ i ≤ cur := by
  have hstrtok := strtok_spec b i
  unfold loopTurn meaning afterToken
  cases hfirst : firstToken (cstr b i) with
  | none =>
    rw [hfirst] at hstrtok
    obtain ⟨cur, heq, hcur, hrest⟩ := hstrtok
    rw [heq]
    exact ⟨none, cur, b, rfl, rfl, hrest, fun _ _ => rfl, by simp, hcur⟩
  | some x =>
    obtain ⟨tok, rest⟩ := x
    rw [hfirst] at hstrtok
    obtain ⟨start, cur, b', heq, hstart, htok, hcur, hrest, hb'⟩ := hstrtok
    have hkeep : ∀ j, j + (cstr b j).length ≤ i → cstr b' j = cstr b j := by
      intro j hj
      rcases hb' with rfl | rfl
      · rfl
      · exact cstr_set (by omega)
    rw [heq]
    simp only [htok, Option.map_some, createCommand]
    cases hp : parseToken tok with
    | none => exact ⟨some none, cur, b', rfl, rfl, hrest, hkeep, by simp, by omega⟩
    | some p =>
      obtain ⟨hskip, htrim⟩ := parseToken_bounds hp
      have hcmd : cstr b' (start + p.skip) = tok.drop p.skip := by
        rw [cstr_add (htok ▸ hskip), htok]
      by_cases ht : p.trim = true
      · have hlt := htrim ht
        have hpos : start + tok.length - 1 = start + p.skip + (tok.length - p.skip - 1) := by omega
        have hlen : (cstr b' (start + p.skip)).length = tok.length - p.skip := by
          rw [hcmd, List.length_drop]
        have hset : cstr (b'.set (start + tok.length - 1) nul) (start + p.skip) =
            (tok.drop p.skip).dropLast := by
          rw [hpos, cstr_set_inside (by omega), hcmd, List.dropLast_eq_take, List.length_drop]
        refine ⟨_, cur, b'.set (start + tok.length - 1) nul, by simp only [ht, if_true]; rfl, ?_, ?_,
          fun j hj => ?_, ?_, by omega⟩
        · simp only [Option.map_some, hset, Parsed.text, ht, if_true]
        · rw [cstr_set_of_lt (by omega)]
          exact hrest
        · rw [cstr_set (by rw [hkeep j hj]; omega), hkeep j hj]
        · rintro c hc
          obtain rfl := Option.some.inj (Option.some.inj hc)
          simp only [hset, List.length_dropLast, List.length_drop]
          omega
      · refine ⟨_, cur, b', by simp only [if_neg ht]; rfl, ?_, hrest, hkeep, ?_, by omega⟩
        · simp only [Option.map_some, hcmd, Parsed.text, if_neg ht]
        · rintro c hc
          obtain rfl := Option.some.inj (Option.some.inj hc)
          simp only [hcmd, List.length_drop]
          omega

/-! ## The process -/

/-- `idle` is a thread that has not called `createCommandPipe`, `done` one whose call has
returned, `exited` one that was ended by `pthread_exit`. -/
inductive Phase where
  | idle
  | running
  | done
  | exited
deriving DecidableEq, Repr

/-- `struct command` : `cmd` points into the buffer of a thread. -/
structure Cmd (ι : Type*) where
  machine : ℤ
  buf : ι
  off : ℕ
deriving DecidableEq, Repr

/-- A thread and its pipeline. `calls` is a ghost : the number of calls of `strtok` the thread
has made. -/
structure Thread (ι : Type*) where
  phase : Phase
  pipe : List (Cmd ι)
  calls : ℕ

/-- The thread after a turn of the loop in the buffer of `u`. -/
def Thread.turn {ι : Type*} (th : Thread ι) (u : ι) : Option (Option (ℤ × ℕ)) → Thread ι
  | none => ⟨.done, th.pipe, th.calls + 1⟩
  | some none => ⟨.exited, th.pipe, th.calls + 1⟩
  | some (some (machine, off)) => ⟨.running, th.pipe ++ [⟨machine, u, off⟩], th.calls + 1⟩

/-- The buffers, the cursor that `strtok` has saved, and the threads. -/
structure Process (ι : Type*) where
  buff : ι → List Char
  saved : Option (ι × ℕ)
  thread : ι → Thread ι

namespace Process

variable {ι : Type*}

/-- Every thread has read its line into its buffer. -/
def start (lines : ι → List Char) : Process ι where
  buff := lines
  saved := none
  thread _ := ⟨.idle, [], 0⟩

/-- Where the next call of `strtok` by a thread begins : the first call is for its buffer, every
other one for NULL. -/
def cursor (s : Process ι) (t : ι) : Option (ι × ℕ) :=
  match (s.thread t).phase with
  | .idle => some (t, 0)
  | .running => s.saved
  | .done | .exited => none

/-- The text it begins at. -/
def scanned (s : Process ι) (t : ι) : List Char :=
  match s.cursor t with
  | some (u, i) => cstr (s.buff u) i
  | none => []

variable [DecidableEq ι]

/-- Thread `t` calls `strtok` and goes on to its next call. -/
def step (s : Process ι) (t : ι) : Option (Process ι) :=
  (s.cursor t).map fun c =>
    let r := loopTurn (s.buff c.1) c.2
    { buff := Function.update s.buff c.1 r.2.2
      saved := some (c.1, r.2.1)
      thread := Function.update s.thread t ((s.thread t).turn c.1 r.1) }

end Process

end NetProg.Cluster
