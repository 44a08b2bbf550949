import Mathlib.Data.List.SplitLengths
import Mathlib.Data.List.TakeWhile
import NetProg.Cluster.Handler
import NetProg.Lib.CString

/-!
# The stream from a client to the server

The client writes its port and then its commands, without a length or a separator. The
handler takes what one `read` returns for the port, and what each later `read` returns for a
command. TCP keeps the bytes and not the boundaries of the writes, so the handler gets the
port and the commands exactly when each read happens to return what one write sent
(`recovers_iff`).

`client_port_str` has 10 bytes and the read asks for 10, so the zero behind a full read is
outside the array. `buff` has a byte more than its read asks for.
-/

namespace NetProg.Cluster

open Lib (CString)

/-- The size of `client_port_str`, and what the read of the port asks for. -/
def portLen : ℕ :=
  10

/-- What the client writes : `argv[3]`, and each line without its newline. -/
def clientStream (port : List Char) (cmds : List (List Char)) : List Char :=
  port ++ cmds.flatten

/-- How the reads of the handler cut a stream of `len` bytes. -/
structure Segments (reads : List ℕ) (len : ℕ) : Prop where
  pos : ∀ k ∈ reads, 0 < k
  le_port : ∀ k ∈ reads.head?, k ≤ portLen
  le_command : ∀ k ∈ reads.tail, k ≤ maxCommandSize
  sum_eq : reads.sum = len

/-- The string in an array of `cap` bytes after a read and a zero behind it. `none` when the
zero is outside the array. -/
def readString (cap : ℕ) (read : List Char) : Option (CString Char cap) :=
  if h : read.length < cap then
    some ⟨read.takeWhile (· ≠ nul), (List.takeWhile_sublist _).length_le.trans_lt h⟩
  else none

/-- The reads of `connectionHandler`, until one returns nothing : the port, and the commands.
`none` when nothing comes at all, or on a write outside an array. -/
def connectionReads : List (List Char) →
    Option (CString Char portLen × List (CString Char (maxCommandSize + 1)))
  | [] => none
  | read :: reads => do
    let port ← readString portLen read
    let cmds ← reads.mapM (readString (maxCommandSize + 1))
    some (port, cmds)

/-- The handler gets the port and the commands. -/
def Recovers (port : List Char) (cmds : List (List Char)) (reads : List ℕ) : Prop :=
  ∃ res, connectionReads (reads.splitLengths (clientStream port cmds)) = some res ∧
    res.1.chars = port ∧ res.2.map CString.chars = cmds

/-! ## One read -/

/-- A read that leaves room for the zero. -/
theorem readString_of_lt {cap : ℕ} {read : List Char} (h : read.length < cap) :
    ∃ s, readString cap read = some s ∧ s.chars = read.takeWhile (· ≠ nul) :=
  ⟨_, dif_pos h, rfl⟩

theorem mapM_readString {cap : ℕ} {reads : List (List Char)} (h : ∀ r ∈ reads, r.length < cap) :
    ∃ ss, reads.mapM (readString cap) = some ss ∧
      ss.map CString.chars = reads.map (List.takeWhile (· ≠ nul)) := by
  induction reads with
  | nil => exact ⟨[], rfl, rfl⟩
  | cons r reads ih =>
    obtain ⟨hr, hreads⟩ := List.forall_mem_cons.1 h
    obtain ⟨s, hs, hchars⟩ := readString_of_lt hr
    obtain ⟨ss, hss, hmap⟩ := ih hreads
    refine ⟨s :: ss, ?_, by rw [List.map_cons, List.map_cons, hchars, hmap]⟩
    rw [List.mapM_cons, hs, hss]
    rfl

/-! ## Cutting a list -/

section Cut

variable {α : Type*}

/-- Lists are cut off at their own lengths. -/
theorem splitLengths_flatten (ls : List (List α)) :
    (ls.map List.length).splitLengths ls.flatten = ls := by
  induction ls with
  | nil => rfl
  | cons l ls ih =>
    rw [List.map_cons, List.splitLengths_cons, List.flatten_cons]
    simp [ih]

theorem length_flatten_map_takeWhile_le (p : α → Bool) (ls : List (List α)) :
    (ls.map (List.takeWhile p)).flatten.length ≤ ls.flatten.length := by
  induction ls with
  | nil => exact le_rfl
  | cons l ls ih =>
    rw [List.map_cons, List.flatten_cons, List.flatten_cons, List.length_append,
      List.length_append]
    exact Nat.add_le_add (List.takeWhile_sublist p).length_le ih

/-- If cutting the lists does not make them shorter together, it changes nothing. -/
theorem eq_of_map_takeWhile {p : α → Bool} {ls ms : List (List α)}
    (h : ls.map (List.takeWhile p) = ms) (hlen : ls.flatten.length = ms.flatten.length) :
    ls = ms := by
  induction ls generalizing ms with
  | nil => exact h
  | cons l ls ih =>
    subst h
    rw [List.map_cons, List.flatten_cons, List.flatten_cons, List.length_append,
      List.length_append] at hlen
    have hhead : (l.takeWhile p).length ≤ l.length := (List.takeWhile_sublist p).length_le
    have htail := length_flatten_map_takeWhile_le p ls
    rw [List.map_cons, ← ih rfl (by omega), (List.takeWhile_prefix p).eq_of_length (by omega)]

end Cut

/-! ## The condition -/

theorem takeWhile_eq_self_of_notMem {s : List Char} (h : nul ∉ s) :
    s.takeWhile (· ≠ nul) = s := by
  rw [List.takeWhile_eq_self_iff]
  intro c hc
  rw [decide_eq_true_eq]
  rintro rfl
  exact h hc

theorem nul_notMem_takeWhile (s : List Char) : nul ∉ s.takeWhile (· ≠ nul) :=
  fun hmem => by simpa using List.mem_takeWhile_imp hmem

/-- The strings that the handler gets from its reads. -/
theorem exists_connectionReads_iff {r : List Char} {rs : List (List Char)} {port : List Char}
    {cmds : List (List Char)} (hsmall : ∀ r' ∈ rs, r'.length < maxCommandSize + 1) :
    (∃ res, connectionReads (r :: rs) = some res ∧ res.1.chars = port ∧
        res.2.map CString.chars = cmds) ↔
      r.length < portLen ∧ (r :: rs).map (List.takeWhile (· ≠ nul)) = port :: cmds := by
  obtain ⟨ss, hss, hmap⟩ := mapM_readString hsmall
  rw [List.map_cons, ← hmap, List.cons.injEq]
  by_cases hlt : r.length < portLen
  · obtain ⟨s, hs, hchars⟩ := readString_of_lt hlt
    have hres : connectionReads (r :: rs) = some (s, ss) := by
      rw [connectionReads, hs, hss]
      rfl
    rw [hres, ← hchars]
    simp [hlt]
  · have hnone : connectionReads (r :: rs) = none := by
      rw [connectionReads, readString, dif_neg hlt]
      rfl
    rw [hnone]
    simp [hlt]

/-- For every cut of the stream into reads, the handler gets the port and the commands if and
only if each read returns what one write sent, the port has at most 9 characters, and
there is no NUL in the stream. -/
theorem recovers_iff (port : List Char) (cmds : List (List Char)) (reads : List ℕ)
    (h : Segments reads (clientStream port cmds).length) :
    Recovers port cmds reads ↔
      reads = port.length :: cmds.map List.length ∧ port.length < portLen ∧
        nul ∉ clientStream port cmds := by
  have hlens := List.map_splitLengths_length _ reads h.sum_eq.le
  have hflat := List.flatten_splitLengths _ reads h.sum_eq.ge
  unfold Recovers
  constructor
  · generalize reads.splitLengths (clientStream port cmds) = rs at hlens hflat ⊢
    cases rs with
    | nil => rintro ⟨res, hres, -⟩; nomatch hres
    | cons r rs =>
      have hsmall : ∀ r' ∈ rs, r'.length < maxCommandSize + 1 := fun r' hr' =>
        Nat.lt_succ_of_le (h.le_command _ (hlens ▸ List.mem_map_of_mem hr'))
      rw [exists_connectionReads_iff hsmall]
      rintro ⟨hlt, hcut⟩
      -- the strings are as long as the stream, so nothing was cut off
      have heq : r :: rs = port :: cmds := eq_of_map_takeWhile hcut (by rw [hflat]; rfl)
      refine ⟨hlens.symm.trans (congrArg (List.map List.length) heq), ?_, fun hnul => ?_⟩
      · rwa [(List.cons.inj heq).1] at hlt
      · obtain ⟨text, htext, hmem⟩ : ∃ text ∈ port :: cmds, nul ∈ text := List.mem_flatten.1 hnul
        rw [← hcut] at htext
        obtain ⟨r', -, rfl⟩ := List.mem_map.1 htext
        exact nul_notMem_takeWhile r' hmem
  · rintro ⟨rfl, hlt, hnul⟩
    have hcut : (port.length :: cmds.map List.length).splitLengths (clientStream port cmds) =
        port :: cmds := splitLengths_flatten (port :: cmds)
    have hsmall : ∀ c ∈ cmds, c.length < maxCommandSize + 1 := fun c hc =>
      Nat.lt_succ_of_le (h.le_command _ (List.mem_map_of_mem hc))
    rw [hcut, exists_connectionReads_iff hsmall]
    refine ⟨hlt, (List.map_congr_left fun c hc => ?_).trans (List.map_id (port :: cmds))⟩
    exact takeWhile_eq_self_of_notMem fun hmem => hnul (List.mem_flatten.2 ⟨c, hc, hmem⟩)

/-- The port and two commands, each in one read. -/
theorem recovers_oneByOne :
    Recovers "8000".toList ["ls".toList, "n2.wc".toList] [4, 2, 5] :=
  (recovers_iff _ _ _ ⟨by decide, by decide, by decide, by decide⟩).2 (by decide)

/-- The port and the first command in one read. -/
theorem not_recovers_coalesced :
    Segments [6] (clientStream "8000".toList ["ls".toList]).length ∧
      ¬Recovers "8000".toList ["ls".toList] [6] := by
  refine ⟨⟨by decide, by decide, by decide, by decide⟩, ?_⟩
  rintro ⟨res, hres, hport, hcmds⟩
  have hlen : (connectionReads ([6].splitLengths (clientStream "8000".toList ["ls".toList]))).map
      (fun res => res.2.length) = some 0 := by decide
  rw [hres, Option.map_some, Option.some.injEq] at hlen
  rw [List.length_eq_zero_iff.1 hlen] at hcmds
  nomatch hcmds

end NetProg.Cluster
