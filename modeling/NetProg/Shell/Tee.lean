import Mathlib.Data.List.TakeWhile
import NetProg.Lib.Memory
import NetProg.Lib.Run

/-!
# The copy of an alternative's input

An alternative that has another one on its right reads the upstream pipe into `pipe_data`, and
writes that to a pipe of its own and to the pipe of the alternative on its right. In
`NetProg.Shell.Exec` the loop is one call. Here it is the passes that the source makes.

A pass reads a chunk into `buff`, copies `buff` as a string behind what `pipe_data` has, and
goes on by the length of the chunk. So the copy ends at a zero byte of the chunk, and without
one it runs on through older bytes of `buff`, and behind `buff`, to the next zero byte. And the
allocation grows after a chunk that fills `buff`, when its copy has been made already.
`copies_iff` says which streams arrive in spite of that.

The whole stream came through one pipe, and both writes are to empty pipes. So they do not
wait, as `NetProg.Shell.Bounded` shows. `realloc` is taken to succeed.
-/

namespace NetProg.Shell

open Lib

/-- `STDOUT_BUF_SIZE`. -/
def stdoutBufSize : ℕ :=
  500

/-- `buff`. -/
abbrev Buffer :=
  { bytes : List UInt8 // bytes.length = stdoutBufSize }

/-- What a pass meets : the chunk that `read` returns, the memory behind `buff`, and what
`realloc` has in bytes that are new. -/
structure Pass where
  chunk : List UInt8
  behind : List UInt8
  fresh : ℕ → UInt8
  chunk_ne : chunk ≠ []
  chunk_le : chunk.length ≤ stdoutBufSize

/-- The variables of the loop. `size` is the allocation of `pipe_data`. -/
structure TeeState where
  buff : Buffer
  pipeData : Memory
  size : ℕ
  buffIdx : ℕ
  buffCnt : ℕ

/-- `buff` after `read`. -/
def Buffer.read (buff : Buffer) (p : Pass) : Buffer :=
  ⟨p.chunk ++ buff.1.drop p.chunk.length, by
    rw [List.length_append, List.length_drop, buff.2]
    exact Nat.add_sub_cancel' p.chunk_le⟩

namespace TeeState

/-- The memory from `buff` on. -/
def source (s : TeeState) (p : Pass) : List UInt8 :=
  (s.buff.read p).1 ++ p.behind

/-- The string that is in `buff`. -/
def string (s : TeeState) (p : Pass) : List UInt8 :=
  (s.source p).takeWhile fun b => b != 0

def IsFull (p : Pass) : Prop :=
  p.chunk.length = stdoutBufSize

instance (p : Pass) : Decidable (IsFull p) :=
  inferInstanceAs (Decidable (_ = _))

/-- The allocation after the pass. -/
def sizeAfter (s : TeeState) (p : Pass) : ℕ :=
  if IsFull p then stdoutBufSize * s.buffCnt else s.size

/-- `pipe_data` after `strcpy` and `realloc`. -/
def dataAfter (s : TeeState) (p : Pass) : Memory :=
  let data := s.pipeData.write s.buffIdx (s.string p ++ [0])
  if IsFull p then fun j => if j < min s.size (s.sizeAfter p) then data j else p.fresh j
  else data

/-- The variables of the loop do not overflow. -/
def IntsFit (s : TeeState) (p : Pass) : Prop :=
  s.buffIdx + p.chunk.length ≤ 2147483647 ∧ s.buffCnt < 2147483647 ∧
    (IsFull p → stdoutBufSize * s.buffCnt ≤ 2147483647)

instance (s : TeeState) (p : Pass) : Decidable (s.IntsFit p) :=
  inferInstanceAs (Decidable (_ ∧ _ ∧ (_ → _)))

end TeeState

open TeeState

/-- A pass of the loop. `none` when `strcpy` finds no zero byte or writes outside the
allocation, or an `int` overflows. -/
def teePass (s : TeeState) (p : Pass) : Option TeeState :=
  if 0 ∈ s.source p ∧ s.buffIdx + (s.string p).length < s.size ∧ s.IntsFit p then
    some ⟨s.buff.read p, s.dataAfter p, s.sizeAfter p, s.buffIdx + p.chunk.length, s.buffCnt + 1⟩
  else none

/-- The loop begins with what the stack has in `buff`, and `calloc` clears `pipe_data`. -/
def teeInit (buff : Buffer) : TeeState :=
  ⟨buff, fun _ => 0, stdoutBufSize, 0, 1⟩

/-- What is written to the pipe of the command and to the pipe of the next one. `none` when that
is read from outside the allocation. -/
def teeWrites (s : TeeState) : Option (List UInt8 × List UInt8) :=
  if s.buffIdx ≤ s.size then
    some (s.pipeData.bytes 0 s.buffIdx, s.pipeData.bytes 0 s.buffIdx)
  else none

/-! ## Streams that arrive -/

/-- What comes through the upstream pipe. -/
def stream (passes : List Pass) : List UInt8 :=
  passes.flatMap Pass.chunk

/-- The loop ends, and `pipe_data` has the whole stream, which is written to both pipes. -/
def Copies (buff : Buffer) (passes : List Pass) : Prop :=
  ∃ s, run teePass (teeInit buff) passes = some s ∧
    s.pipeData.bytes 0 s.buffIdx = stream passes ∧
    teeWrites s = some (stream passes, stream passes)

/-- The pass can take its chunk : the string in `buff` ends, and is copied with its zero byte
inside the allocation; the chunk is inside the allocation after the pass; and what the chunk has
behind a zero byte is there already. -/
structure CanTake (s : TeeState) (p : Pass) : Prop where
  ends : 0 ∈ s.source p
  room : s.buffIdx + (s.string p).length < s.size
  ints : s.IntsFit p
  fits : s.buffIdx + p.chunk.length ≤ s.sizeAfter p
  there : ∀ j (h : j < p.chunk.length), (s.string p).length < j →
    (if s.buffIdx + j < s.size then s.pipeData (s.buffIdx + j) else p.fresh (s.buffIdx + j)) =
      p.chunk[j]

/-! ## One pass -/

variable {s s' : TeeState} {p : Pass} {passes : List Pass}

/-- The allocation is no larger than the next `realloc` makes it. -/
def Grows (s : TeeState) : Prop :=
  s.size ≤ stdoutBufSize * s.buffCnt

theorem Grows.size_le (h : Grows s) : s.size ≤ s.sizeAfter p := by
  unfold sizeAfter
  split_ifs
  · exact h
  · exact le_rfl

theorem teePass_spec (h : teePass s p = some s') : 0 ∈ s.source p ∧
    s.buffIdx + (s.string p).length < s.size ∧ s.IntsFit p ∧ s' =
      ⟨s.buff.read p, s.dataAfter p, s.sizeAfter p, s.buffIdx + p.chunk.length, s.buffCnt + 1⟩ := by
  unfold teePass at h
  split_ifs at h with hc
  exact ⟨hc.1, hc.2.1, hc.2.2, (Option.some.inj h).symm⟩

theorem teePass_of (hends : 0 ∈ s.source p) (hroom : s.buffIdx + (s.string p).length < s.size)
    (hints : s.IntsFit p) : teePass s p =
      some ⟨s.buff.read p, s.dataAfter p, s.sizeAfter p, s.buffIdx + p.chunk.length,
        s.buffCnt + 1⟩ :=
  if_pos ⟨hends, hroom, hints⟩

theorem Grows.teePass (hgrows : Grows s) (h : teePass s p = some s') : Grows s' := by
  obtain ⟨-, -, -, rfl⟩ := teePass_spec h
  have hle : s.sizeAfter p ≤ stdoutBufSize * s.buffCnt := by
    unfold sizeAfter
    split_ifs
    · exact le_rfl
    · exact hgrows
  exact hle.trans (Nat.mul_le_mul_left _ (Nat.le_succ _))

/-- The string and its zero byte are the beginning of the memory. -/
theorem exists_source_eq (h : 0 ∈ s.source p) :
    ∃ tail, s.source p = s.string p ++ 0 :: tail := by
  have hsplit := List.takeWhile_append_dropWhile (p := fun b : UInt8 => b != 0) (l := s.source p)
  cases hdrop : (s.source p).dropWhile fun b => b != 0 with
  | nil =>
    rw [hdrop, List.append_nil] at hsplit
    rw [← hsplit] at h
    have hne := List.mem_takeWhile_imp h
    simp at hne
  | cons b tail =>
    have hb : b = 0 := by
      have hhead := List.head_dropWhile_not (fun b : UInt8 => b != 0) (l := s.source p)
        (by rw [hdrop]; simp)
      simpa [hdrop] using hhead
    rw [hdrop, hb] at hsplit
    exact ⟨tail, hsplit.symm⟩

/-- Up to its first zero byte, the chunk is what `strcpy` copies. -/
theorem getElem_string (h : 0 ∈ s.source p) {j : ℕ} (hj : j < p.chunk.length)
    (hlt : j < (s.string p ++ [0]).length) : (s.string p ++ [0])[j] = p.chunk[j] := by
  obtain ⟨tail, htail⟩ := exists_source_eq h
  have hchunk : (s.source p)[j]? = some p.chunk[j] := by
    rw [source, Buffer.read, List.append_assoc, List.getElem?_append_left hj,
      List.getElem?_eq_getElem hj]
  rw [htail, ← List.singleton_append, ← List.append_assoc,
    List.getElem?_append_left hlt, List.getElem?_eq_getElem hlt] at hchunk
  exact Option.some.inj hchunk

/-- `realloc` keeps what was inside the allocation. -/
theorem dataAfter_of_lt_size {j : ℕ} (hgrows : Grows s) (hj : j < s.size) :
    s.dataAfter p j = s.pipeData.write s.buffIdx (s.string p ++ [0]) j := by
  unfold dataAfter
  by_cases hfull : IsFull p
  · simp only [if_pos hfull]
    exact if_pos (lt_min hj (hj.trans_le hgrows.size_le))
  · simp only [if_neg hfull]

/-- What `realloc` adds. -/
theorem dataAfter_of_size_le {j : ℕ} (hj : s.size ≤ j) (hlt : j < s.sizeAfter p) :
    s.dataAfter p j = p.fresh j := by
  have hfull : IsFull p := by
    by_contra hnot
    rw [sizeAfter, if_neg hnot] at hlt
    omega
  unfold dataAfter
  simp only [if_pos hfull]
  exact if_neg fun h => absurd (lt_min_iff.1 h).1 (by omega)

/-- A pass keeps what is in front of `buff_idx`. -/
theorem dataAfter_of_lt {j : ℕ} (hroom : s.buffIdx + (s.string p).length < s.size)
    (hgrows : Grows s) (hj : j < s.buffIdx) : s.dataAfter p j = s.pipeData j := by
  rw [dataAfter_of_lt_size hgrows (by omega)]
  exact Memory.write_of_outside (.inl hj)

/-- A pass has stored its chunk when the bytes behind a zero byte were there. -/
theorem bytes_dataAfter_iff (hends : 0 ∈ s.source p)
    (hroom : s.buffIdx + (s.string p).length < s.size) (hgrows : Grows s)
    (hfits : s.buffIdx + p.chunk.length ≤ s.sizeAfter p) :
    (s.dataAfter p).bytes s.buffIdx p.chunk.length = p.chunk ↔
      ∀ j (h : j < p.chunk.length), (s.string p).length < j →
        (if s.buffIdx + j < s.size then s.pipeData (s.buffIdx + j)
          else p.fresh (s.buffIdx + j)) = p.chunk[j] := by
  rw [Memory.bytes_eq_iff]
  refine forall_congr' fun j => forall_congr' fun hj => ?_
  by_cases hle : j ≤ (s.string p).length
  · refine iff_of_true ?_ fun hlt => absurd hlt (by omega)
    rw [dataAfter_of_lt_size hgrows (by omega), Memory.write_add (by simp; omega)]
    exact getElem_string hends hj _
  · have hlt : (s.string p).length < j := by omega
    rw [forall_prop_of_true hlt]
    split_ifs with hold
    · rw [dataAfter_of_lt_size hgrows hold, Memory.write_of_outside (.inr (by simp; omega))]
    · rw [dataAfter_of_size_le (by omega) (by omega)]

/-- `pipe_data` after a pass that has taken its chunk. -/
theorem bytes_teePass (hroom : s.buffIdx + (s.string p).length < s.size) (hgrows : Grows s)
    (hstored : (s.dataAfter p).bytes s.buffIdx p.chunk.length = p.chunk) :
    (s.dataAfter p).bytes 0 (s.buffIdx + p.chunk.length) =
      s.pipeData.bytes 0 s.buffIdx ++ p.chunk := by
  rw [Memory.bytes_add, Nat.zero_add, hstored]
  congr 1
  refine Memory.bytes_congr fun j hj => ?_
  rw [Nat.zero_add]
  exact dataAfter_of_lt hroom hgrows hj

/-! ## Runs -/

/-- Later passes keep what is in front of `buff_idx`. -/
theorem run_keeps (hgrows : Grows s) (hr : run teePass s passes = some s') :
    s.buffIdx ≤ s'.buffIdx ∧ ∀ j < s.buffIdx, s'.pipeData j = s.pipeData j := by
  induction passes generalizing s with
  | nil =>
    cases hr
    exact ⟨le_rfl, fun _ _ => rfl⟩
  | cons p passes ih =>
    obtain ⟨t, ht, hr⟩ := run_cons_eq_some.1 hr
    obtain ⟨hle, hkeeps⟩ := ih (hgrows.teePass ht) hr
    obtain ⟨-, hroom, -, rfl⟩ := teePass_spec ht
    have hlt : s.buffIdx < s.buffIdx + p.chunk.length :=
      Nat.lt_add_of_pos_right (List.length_pos_iff.2 p.chunk_ne)
    refine ⟨hlt.le.trans hle, fun j hj => ?_⟩
    rw [hkeeps j (hj.trans hlt)]
    exact dataAfter_of_lt hroom hgrows hj

/-- A pass needs room for a zero byte at least. -/
theorem buffIdx_le_size (hr : run teePass s passes = some s') (h : s'.buffIdx ≤ s'.size) :
    s.buffIdx ≤ s.size := by
  cases passes with
  | nil =>
    cases hr
    exact h
  | cons p passes =>
    obtain ⟨t, ht, -⟩ := run_cons_eq_some.1 hr
    obtain ⟨-, hroom, -⟩ := teePass_spec ht
    omega

/-- The rest of the loop ends with the rest of the stream behind what `pipe_data` had. -/
def Appends (s : TeeState) (passes : List Pass) : Prop :=
  ∃ s', run teePass s passes = some s' ∧ s'.buffIdx ≤ s'.size ∧
    s'.pipeData.bytes 0 s'.buffIdx = s.pipeData.bytes 0 s.buffIdx ++ stream passes

/-- When the rest of the loop goes well, the pass has stored its chunk. -/
theorem stored_of_run {data : List UInt8} (hgrows : Grows s) (ht : teePass s p = some s')
    {s'' : TeeState} (hr : run teePass s' passes = some s'')
    (hbytes : s''.pipeData.bytes 0 s''.buffIdx =
      s.pipeData.bytes 0 s.buffIdx ++ (p.chunk ++ data)) :
    (s.dataAfter p).bytes s.buffIdx p.chunk.length = p.chunk := by
  obtain ⟨hle, hkeeps⟩ := run_keeps (hgrows.teePass ht) hr
  obtain ⟨-, -, -, rfl⟩ := teePass_spec ht
  obtain ⟨k, hk⟩ := Nat.exists_eq_add_of_le hle
  simp only at hk hkeeps
  rw [hk, Memory.bytes_add, Memory.bytes_add, List.append_assoc] at hbytes
  have hchunk := (List.append_inj (List.append_inj hbytes (by simp)).2 (by simp)).1
  rw [Nat.zero_add] at hchunk
  rw [← Memory.bytes_congr fun j hj => hkeeps (s.buffIdx + j) (by omega)]
  exact hchunk

theorem appends_iff (hgrows : Grows s) (hinside : s.buffIdx ≤ s.size) :
    Appends s passes ↔ StepsMeet teePass CanTake s passes := by
  induction passes generalizing s with
  | nil => exact iff_of_true ⟨s, rfl, hinside, by simp [stream]⟩ trivial
  | cons p passes ih =>
    have hstream : stream (p :: passes) = p.chunk ++ stream passes := List.flatMap_cons
    constructor
    · rintro ⟨s', hr, hend, hbytes⟩
      obtain ⟨t, ht, hr⟩ := run_cons_eq_some.1 hr
      have hfits := buffIdx_le_size hr hend
      rw [hstream] at hbytes
      have hstored := stored_of_run hgrows ht hr hbytes
      have hgrows' := hgrows.teePass ht
      obtain ⟨hends, hroom, hints, rfl⟩ := teePass_spec ht
      have hthere := (bytes_dataAfter_iff hends hroom hgrows hfits).1 hstored
      refine ⟨⟨hends, hroom, hints, hfits, hthere⟩, fun t ht' => ?_⟩
      obtain rfl := Option.some.inj (ht.symm.trans ht')
      refine (ih hgrows' hfits).1 ⟨s', hr, hend, ?_⟩
      rw [hbytes, bytes_teePass hroom hgrows hstored, List.append_assoc]
    · rintro ⟨⟨hends, hroom, hints, hfits, hthere⟩, hrest⟩
      have ht := teePass_of hends hroom hints
      have hstored := (bytes_dataAfter_iff hends hroom hgrows hfits).2 hthere
      obtain ⟨s', hr, hend, hbytes⟩ := (ih (hgrows.teePass ht) hfits).2 (hrest _ ht)
      refine ⟨s', run_cons_eq_some.2 ⟨_, ht, hr⟩, hend, ?_⟩
      rw [hbytes, bytes_teePass hroom hgrows hstored, hstream, List.append_assoc]

theorem copies_iff_appends {buff : Buffer} :
    Copies buff passes ↔ Appends (teeInit buff) passes := by
  unfold Copies Appends teeWrites
  refine exists_congr fun s => and_congr_right fun _ => ?_
  constructor
  · rintro ⟨hbytes, hwrites⟩
    split_ifs at hwrites with hinside
    exact ⟨hinside, hbytes⟩
  · rintro ⟨hinside, hbytes⟩
    have hbytes' : s.pipeData.bytes 0 s.buffIdx = stream passes := hbytes
    rw [if_pos hinside, hbytes']
    exact ⟨rfl, rfl⟩

/-- The stream arrives, in whatever chunks `read` returns it and whatever is in memory, exactly
when every pass can take its chunk. -/
theorem copies_iff (buff : Buffer) (passes : List Pass) :
    Copies buff passes ↔ StepsMeet teePass CanTake (teeInit buff) passes := by
  rw [copies_iff_appends]
  exact appends_iff (Nat.le_refl _) (Nat.zero_le _)

/-- A zero byte in front of another byte. -/
def zeroInside : Pass where
  chunk := [97, 0, 98]
  behind := []
  fresh _ := 0
  chunk_ne := by decide
  chunk_le := by decide

/-- A stack that is clear. -/
def clearBuffer : Buffer :=
  ⟨List.replicate stdoutBufSize 0, List.length_replicate⟩

/-- The byte behind the zero byte is lost. -/
theorem not_copies_zeroInside : ¬Copies clearBuffer [zeroInside] := by
  rw [copies_iff_appends, appends_iff (Nat.le_refl _) (Nat.zero_le _)]
  rintro ⟨htake, -⟩
  have hstring : (teeInit clearBuffer).string zeroInside = [97] := rfl
  have hlost : (0 : UInt8) = 98 := htake.there 2 (by decide) (by rw [hstring]; decide)
  exact absurd hlost (by decide)

end NetProg.Shell
