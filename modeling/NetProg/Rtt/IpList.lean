import Mathlib.Data.List.TakeWhile
import NetProg.Lib.Block
import NetProg.Rtt.Table

/-!
# The list of addresses in memory

`parseIpList` makes room for 1000 pointers. When they are used up it doubles `curr_sz` and
passes it to `realloc`, which takes bytes : the block of 8000 bytes shrinks to 2000, and the
next pointer is stored behind it. The buffer `ip` is not cleared between tokens, and the
loop that looks for the first separator goes over ten places of it, past the end of a
shorter token.

`listedRight_iff` says for which files the list is right.
-/

namespace NetProg.Rtt

open Lib

/-! ## The loop with its memory -/

/-- `IP_V6_BUF_LEN`. -/
def ipV6BufLen : ℕ :=
  100

/-- The variables of `parseIpList`. `scanned` logs the places where `fscanf` stored the
terminating NUL in `ip`. -/
structure ParseState where
  ip : ℕ → Char
  currSz : ℕ
  currCnt : ℕ
  list : Block IpStruct
  scanned : List ℕ

/-- The variables before the loop. -/
def ParseState.start (ip : ℕ → Char) : ParseState :=
  ⟨ip, 1000, 0, .calloc 8 1000, []⟩

/-- One iteration. All its accesses to `list->ip` have the index `curr_cnt`. -/
def ParseState.add (s : ParseState) (token : List Char) : ParseState :=
  let ip := scanToken s.ip token
  let full := s.currCnt = s.currSz
  let currSz := if full then s.currSz * 2 else s.currSz
  let list := if full then s.list.realloc 8 currSz else s.list
  { ip := ip
    currSz := currSz
    currCnt := s.currCnt + 1
    list := list.store 8 s.currCnt ⟨scanFamily ip, token.takeWhile (· ≠ '\x00')⟩
    scanned := token.length :: s.scanned }

/-- `parseIpList`, with the content of the buffer before it is read. -/
def ParseState.parse (ip : ℕ → Char) (tokens : List (List Char)) : ParseState :=
  tokens.foldl ParseState.add (.start ip)

/-- The list that `main` gets : `list->count` is `curr_cnt`. -/
def ParseState.ipList (s : ParseState) : List IpStruct :=
  (s.list.take s.currCnt).reduceOption

/-- The first of `'.'` and `':'` in the first ten characters of the token is `'.'`. -/
def ownFamily (token : List Char) : Bool :=
  (token.take 10).find? (fun c => c = '.' || c = ':') = some '.'

/-- Every access to `list->ip` is inside the block and every token inside the buffer, and
the list has the tokens in the order of the file, each flagged as it is written. -/
structure ListedRight (ip : ℕ → Char) (tokens : List (List Char)) : Prop where
  inBounds : (ParseState.parse ip tokens).list.InBounds 8
  scanned : ∀ i ∈ (ParseState.parse ip tokens).scanned, i < ipV6BufLen
  count : (ParseState.parse ip tokens).currCnt = tokens.length
  list : (ParseState.parse ip tokens).list.take tokens.length =
    tokens.map fun token => some ⟨ownFamily token, token⟩

/-- The token has no separator, and the first one that stands behind it in the buffer, in
the first ten places, is `'.'`. -/
def Misled (ip : ℕ → Char) (token : List Char) : Prop :=
  '.' ∉ token ∧ ':' ∉ token ∧
    ∃ i < 10, token.length < i ∧ ip i = '.' ∧ ∀ j, token.length < j → j < i → ip j ≠ ':'

/-- No token of the file is misled by what older tokens left in the buffer. -/
def Unmisled : (ℕ → Char) → List (List Char) → Prop
  | _, [] => True
  | ip, token :: tokens => ¬Misled ip token ∧ Unmisled (scanToken ip token) tokens

/-! ## The flag of a token -/

theorem scanFamily_iff {buf : ℕ → Char} :
    scanFamily buf = true ↔ ∃ i < 10, buf i = '.' ∧ ∀ j < i, buf j ≠ ':' := by
  by_cases hsep : ∃ i, i < 10 ∧ (buf i = '.' ∨ buf i = ':')
  · -- the scan stops at the first separator
    obtain ⟨i, ⟨hi, hi'⟩, hmin⟩ : ∃ i, (i < 10 ∧ (buf i = '.' ∨ buf i = ':')) ∧
        ∀ j < i, ¬(j < 10 ∧ (buf j = '.' ∨ buf j = ':')) :=
      ⟨Nat.find hsep, Nat.find_spec hsep, fun j hj => Nat.find_min hsep hj⟩
    have hbefore : ∀ j < i, buf j ≠ '.' ∧ buf j ≠ ':' := fun j hj => by
      have := hmin j hj
      exact not_or.1 fun h => this ⟨hj.trans hi, h⟩
    rw [scanFamily_eq hi hbefore hi', decide_eq_true_iff]
    constructor
    · exact fun hdot => ⟨i, hi, hdot, fun j hj => (hbefore j hj).2⟩
    · rintro ⟨k, hk, hdot, hno⟩
      rcases Nat.lt_trichotomy k i with hlt | rfl | hlt
      · exact absurd hdot (hbefore k hlt).1
      · exact hdot
      · exact hi'.resolve_right (hno i hlt)
  · have hnone : scanFamily buf = false := by
      rw [scanFamily, List.findSome?_eq_none_iff.2, Option.getD_none]
      intro i hi
      have hi' := not_or.1 fun h => hsep ⟨i, List.mem_range.1 hi, h⟩
      rw [if_neg hi'.1, if_neg hi'.2]
    rw [hnone]
    refine iff_of_false (by decide) ?_
    rintro ⟨i, hi, hdot, -⟩
    exact hsep ⟨i, hi, .inl hdot⟩

theorem ownFamily_iff {token : List Char} : ownFamily token = true ↔
    ∃ i < 10, token[i]? = some '.' ∧ ∀ j < i, token[j]? ≠ some ':' := by
  rw [ownFamily, decide_eq_true_iff, List.find?_eq_some_iff_getElem]
  constructor
  · rintro ⟨-, i, hi, hdot, hbefore⟩
    rw [List.length_take] at hi
    refine ⟨i, by omega, ?_, fun j hj hcolon => ?_⟩
    · rw [List.getElem?_eq_getElem (by omega), ← hdot, List.getElem_take]
    · have := hbefore j hj
      rw [List.getElem_take, (List.getElem?_eq_some_iff.1 hcolon).2] at this
      exact absurd this (by decide)
  · rintro ⟨i, hi, hdot, hbefore⟩
    -- the first dot, which is not behind the one given
    have hex : ∃ k, token[k]? = some '.' := ⟨i, hdot⟩
    obtain ⟨k, hk, hki, hmin⟩ : ∃ k, token[k]? = some '.' ∧ k ≤ i ∧
        ∀ j < k, token[j]? ≠ some '.' :=
      ⟨Nat.find hex, Nat.find_spec hex, Nat.find_min' hex hdot, fun j hj => Nat.find_min hex hj⟩
    obtain ⟨hlt, hget⟩ := List.getElem?_eq_some_iff.1 hk
    refine ⟨rfl, k, by rw [List.length_take]; omega, by rw [List.getElem_take, hget], ?_⟩
    intro j hj
    have hj' : token[j]? = some token[j] := List.getElem?_eq_getElem (hj.trans hlt)
    have hdot' := hmin j hj
    have hcolon := hbefore j (by omega)
    rw [hj', ne_eq, Option.some.injEq] at hdot' hcolon
    rw [List.getElem_take]
    simp [hdot', hcolon]

section Scan

variable {ip : ℕ → Char} {token : List Char} {i : ℕ}

/-- The scan of a misled token finds the dot behind the token. -/
theorem scanFamily_of_misled (h : Misled ip token) : scanFamily (scanToken ip token) = true := by
  obtain ⟨-, hcolon, i, hi, hlt, hstale, hbefore⟩ := h
  refine scanFamily_iff.2 ⟨i, hi, by rw [scanToken_of_lt hlt, hstale], fun j hj => ?_⟩
  rcases Nat.lt_trichotomy j token.length with hj' | rfl | hj'
  · rw [scanToken_of_getElem? (List.getElem?_eq_getElem hj')]
    exact fun hc => hcolon (hc ▸ List.getElem_mem hj')
  · rw [scanToken_length]
    decide
  · rw [scanToken_of_lt hj']
    exact hbefore j hj' hj

theorem scanFamily_of_ownFamily (h : ownFamily token = true) :
    scanFamily (scanToken ip token) = true := by
  obtain ⟨i, hi, hdot, hbefore⟩ := ownFamily_iff.1 h
  have hlt := (List.getElem?_eq_some_iff.1 hdot).1
  refine scanFamily_iff.2 ⟨i, hi, scanToken_of_getElem? hdot, fun j hj hc => ?_⟩
  have hj' : token[j]? = some token[j] := List.getElem?_eq_getElem (hj.trans hlt)
  rw [scanToken_of_getElem? hj'] at hc
  exact hbefore j hj (hc ▸ hj')

/-- A dot that the scan finds is in the token, or the token is misled. -/
theorem misled_of_scanFamily (h : scanFamily (scanToken ip token) = true)
    (hown : ownFamily token ≠ true) : Misled ip token := by
  obtain ⟨i, hi, hdot, hbefore⟩ := scanFamily_iff.1 h
  -- no dot of the token is in front of the place
  have hno : ∀ k ≤ i, token[k]? ≠ some '.' := fun k hk hget => by
    have hlt := (List.getElem?_eq_some_iff.1 hget).1
    refine hown (ownFamily_iff.2 ⟨k, by omega, hget, fun j hj hc => ?_⟩)
    exact hbefore j (by omega) (scanToken_of_getElem? hc)
  rcases Nat.lt_trichotomy i token.length with hlt | rfl | hlt
  · have hget := List.getElem?_eq_getElem hlt
    rw [scanToken_of_getElem? hget] at hdot
    exact absurd (hdot ▸ hget) (hno i le_rfl)
  · rw [scanToken_length] at hdot
    exact absurd hdot (by decide)
  rw [scanToken_of_lt hlt] at hdot
  refine ⟨fun hmem => ?_, fun hmem => ?_, i, hi, hlt, hdot, fun j hj hji => ?_⟩
  · obtain ⟨k, hk⟩ := List.getElem?_of_mem hmem
    have := (List.getElem?_eq_some_iff.1 hk).1
    exact hno k (by omega) hk
  · obtain ⟨k, hk⟩ := List.getElem?_of_mem hmem
    have := (List.getElem?_eq_some_iff.1 hk).1
    exact hbefore k (by omega) (scanToken_of_getElem? hk)
  · have hstale := hbefore j hji
    rwa [scanToken_of_lt hj] at hstale

/-- The flag is the token's own unless the token is misled. -/
theorem scanFamily_scanToken_eq_iff :
    scanFamily (scanToken ip token) = ownFamily token ↔ ¬Misled ip token := by
  constructor
  · intro heq hmisled
    obtain ⟨i, -, hdot, -⟩ := ownFamily_iff.1 (heq ▸ scanFamily_of_misled hmisled)
    exact hmisled.1 (List.mem_of_getElem? hdot)
  · intro hnot
    refine Bool.eq_iff_iff.2 ⟨fun h => ?_, scanFamily_of_ownFamily⟩
    by_contra hown
    exact hnot (misled_of_scanFamily h hown)

end Scan

/-- `parseIpList` is right when no token has a NUL and none is misled. -/
theorem parseIpList_eq_iff {ip : ℕ → Char} {tokens : List (List Char)} :
    parseIpList ip tokens = tokens.map (fun token => ⟨ownFamily token, token⟩) ↔
      (∀ token ∈ tokens, '\x00' ∉ token) ∧ Unmisled ip tokens := by
  induction tokens generalizing ip with
  | nil => exact iff_of_true rfl ⟨List.forall_mem_nil _, trivial⟩
  | cons token tokens ih =>
    have hnul : token.takeWhile (· ≠ '\x00') = token ↔ '\x00' ∉ token := by
      rw [List.takeWhile_eq_self_iff]
      constructor
      · exact fun h hmem => by simpa using h _ hmem
      · exact fun h c hc => decide_eq_true fun heq => h (heq ▸ hc)
    rw [parseIpList, List.map_cons, List.cons.injEq, ih, IpStruct.mk.injEq,
      scanFamily_scanToken_eq_iff, hnul, List.forall_mem_cons, Unmisled]
    constructor
    · rintro ⟨⟨hmisled, htoken⟩, hrest, htail⟩
      exact ⟨⟨htoken, hrest⟩, hmisled, htail⟩
    · rintro ⟨⟨htoken, hrest⟩, hmisled, htail⟩
      exact ⟨⟨hmisled, htoken⟩, hrest, htail⟩

/-! ## The block -/

/-- The block that `calloc` returned is still in use. -/
structure FirstBlock (s : ParseState) : Prop where
  currSz : s.currSz = 1000
  bytes : s.list.bytes = 8000
  inBounds : s.list.InBounds 8

theorem firstBlock_start (ip : ℕ → Char) : FirstBlock (.start ip) :=
  ⟨rfl, rfl, Block.inBounds_calloc 1000⟩

/-- A token that finds room is stored behind the others. -/
theorem FirstBlock.add {s : ParseState} (h : FirstBlock s) (hroom : s.currCnt < 1000)
    (token : List Char) :
    FirstBlock (s.add token) ∧ (s.add token).list.take (s.currCnt + 1) =
      s.list.take s.currCnt ++
        [some ⟨scanFamily (scanToken s.ip token), token.takeWhile (· ≠ '\x00')⟩] := by
  obtain ⟨hsz, hbytes, hin⟩ := h
  have hnot : s.currCnt ≠ s.currSz := by omega
  have hfits : 8 * (s.currCnt + 1) ≤ s.list.bytes := by omega
  have hadd : (s.add token).list =
      s.list.store 8 s.currCnt ⟨scanFamily (scanToken s.ip token),
        token.takeWhile (· ≠ '\x00')⟩ := by
    simp only [ParseState.add, if_neg hnot]
  refine ⟨⟨?_, ?_, ?_⟩, ?_⟩
  · simpa only [ParseState.add, if_neg hnot] using hsz
  · rw [hadd]
    exact hbytes
  · rw [hadd]
    exact hin.store hfits _
  · rw [hadd]
    exact Block.take_store hfits _

/-- As long as there is room, the loop stores the list of `parseIpList`. -/
theorem FirstBlock.foldl {s : ParseState} (h : FirstBlock s) (tokens : List (List Char))
    (hroom : s.currCnt + tokens.length ≤ 1000) :
    FirstBlock (tokens.foldl ParseState.add s) ∧
      (tokens.foldl ParseState.add s).currCnt = s.currCnt + tokens.length ∧
        (tokens.foldl ParseState.add s).list.take (s.currCnt + tokens.length) =
          s.list.take s.currCnt ++ (parseIpList s.ip tokens).map some := by
  induction tokens generalizing s with
  | nil => exact ⟨h, rfl, (List.append_nil _).symm⟩
  | cons token tokens ih =>
    rw [List.length_cons] at hroom
    obtain ⟨hfirst, htake⟩ := h.add (by omega) token
    have hcnt : (s.add token).currCnt = s.currCnt + 1 := rfl
    obtain ⟨hfirst', hcnt', htake'⟩ := ih hfirst (by omega)
    rw [hcnt, Nat.add_assoc, Nat.add_comm 1] at hcnt' htake'
    refine ⟨hfirst', hcnt', htake'.trans ?_⟩
    rw [htake, List.append_assoc]
    rfl

theorem accesses_foldl (s : ParseState) (tokens : List (List Char)) :
    s.list.accesses ⊆ (tokens.foldl ParseState.add s).list.accesses := by
  induction tokens generalizing s with
  | nil => exact List.Subset.refl _
  | cons token tokens ih =>
    refine List.Subset.trans (fun a ha => ?_) (ih (s.add token))
    refine List.mem_cons_of_mem _ ?_
    split <;> exact ha

/-- The token number 1001 is stored behind the block. -/
theorem not_inBounds {ip : ℕ → Char} {tokens : List (List Char)} (hlen : 1000 < tokens.length) :
    ¬(ParseState.parse ip tokens).list.InBounds 8 := by
  have hlen' : (tokens.take 1000).length = 1000 := by
    rw [List.length_take]
    omega
  obtain ⟨⟨hsz, -, -⟩, hcnt, -⟩ :=
    (firstBlock_start ip).foldl (tokens.take 1000) (by rw [hlen']; rfl)
  have hcnt' : ((tokens.take 1000).foldl ParseState.add (.start ip)).currCnt = 1000 := by
    rw [hcnt, hlen']
    rfl
  have hdrop : tokens.drop 1000 = tokens[1000] :: tokens.drop 1001 :=
    List.drop_eq_getElem_cons hlen
  intro hin
  have hmem : (1000, 2000) ∈ (ParseState.parse ip tokens).list.accesses := by
    rw [ParseState.parse, ← List.take_append_drop 1000 tokens, List.foldl_append, hdrop,
      List.foldl_cons]
    refine accesses_foldl _ _ ?_
    simp [ParseState.add, Block.store, Block.realloc, hcnt', hsz]
  exact absurd (hin _ hmem) (by decide)

theorem scanned_foldl {s : ParseState} {tokens : List (List Char)} {i : ℕ}
    (hi : i ∈ (tokens.foldl ParseState.add s).scanned) :
    i ∈ s.scanned ∨ ∃ token ∈ tokens, i = token.length := by
  induction tokens generalizing s with
  | nil => exact .inl hi
  | cons token tokens ih =>
    rcases ih hi with h | ⟨t, ht, rfl⟩
    · rcases List.mem_cons.1 h with rfl | h
      · exact .inr ⟨token, List.mem_cons_self, rfl⟩
      · exact .inl h
    · exact .inr ⟨t, List.mem_cons_of_mem _ ht, rfl⟩

/-! ## Files -/

/-- As long as there is room, the list in memory is that of `parseIpList`, and no access is outside
of the block. -/
theorem ipList_parse {ip : ℕ → Char} {tokens : List (List Char)} (hlen : tokens.length ≤ 1000) :
    (ParseState.parse ip tokens).ipList = parseIpList ip tokens ∧
      (ParseState.parse ip tokens).list.InBounds 8 := by
  obtain ⟨hfirst, hcnt, htake⟩ :=
    (firstBlock_start ip).foldl tokens (by simpa [ParseState.start])
  refine ⟨?_, hfirst.inBounds⟩
  rw [ParseState.ipList, ParseState.parse, hcnt, htake]
  change List.filterMap id _ = _
  simp [ParseState.start, Block.take, List.filterMap_map]

/-- A token is stored up to its NUL inside the buffer. -/
theorem scanned_parse {ip : ℕ → Char} {tokens : List (List Char)}
    (hshort : ∀ token ∈ tokens, token.length < ipV6BufLen) :
    ∀ i ∈ (ParseState.parse ip tokens).scanned, i < ipV6BufLen := by
  intro i hi
  rcases scanned_foldl hi with h | ⟨token, htoken, rfl⟩
  · exact absurd h List.not_mem_nil
  · exact hshort token htoken

/-- For every file of tokens that fit into the buffer, and every content of the buffer
before, the list is right if and only if there are at most 1000 tokens, none of them has a
NUL, and none is misled by what older tokens left in the buffer. -/
theorem listedRight_iff (ip : ℕ → Char) (tokens : List (List Char))
    (hshort : ∀ token ∈ tokens, token.length < ipV6BufLen) :
    ListedRight ip tokens ↔
      tokens.length ≤ 1000 ∧ (∀ token ∈ tokens, '\x00' ∉ token) ∧ Unmisled ip tokens := by
  rw [← parseIpList_eq_iff]
  have hlist : tokens.length ≤ 1000 →
      ((ParseState.parse ip tokens).list.take tokens.length =
        tokens.map (fun token => some ⟨ownFamily token, token⟩) ↔
          parseIpList ip tokens = tokens.map fun token => ⟨ownFamily token, token⟩) := by
    intro hlen
    have htake := ((firstBlock_start ip).foldl tokens (by simpa [ParseState.start])).2.2
    rw [show (ParseState.start ip).currCnt = 0 from rfl, Nat.zero_add] at htake
    rw [ParseState.parse, htake, ← (Option.some_injective IpStruct).list_map.eq_iff, List.map_map]
    rfl
  constructor
  · intro h
    have hlen : tokens.length ≤ 1000 := by
      by_contra hlong
      exact not_inBounds (by omega) h.inBounds
    exact ⟨hlen, (hlist hlen).1 h.list⟩
  · rintro ⟨hlen, hright⟩
    obtain ⟨hfirst, hcnt, -⟩ :=
      (firstBlock_start ip).foldl tokens (by simpa [ParseState.start])
    exact ⟨hfirst.inBounds, scanned_parse hshort, hcnt.trans (Nat.zero_add _),
      (hlist hlen).2 hright⟩

/-- A token with a separator is not misled. -/
theorem not_misled_of_mem {ip : ℕ → Char} {token : List Char} (h : '.' ∈ token ∨ ':' ∈ token) :
    ¬Misled ip token := by
  rintro ⟨hdot, hcolon, -⟩
  exact h.elim hdot hcolon

/-- Two addresses, read into a buffer that is full of dots. -/
theorem listedRight_two :
    ListedRight (fun _ => '.') ["127.0.0.1".toList, "fe80::1".toList] := by
  refine (listedRight_iff (fun _ => '.') ["127.0.0.1".toList, "fe80::1".toList] ?_).2
    ⟨by decide, ?_, not_misled_of_mem (.inl (by decide)),
      not_misled_of_mem (.inr (by decide)), trivial⟩
  · exact List.forall_mem_cons.2 ⟨by decide, List.forall_mem_singleton.2 (by decide)⟩
  · exact List.forall_mem_cons.2 ⟨by decide, List.forall_mem_singleton.2 (by decide)⟩

/-- A file with one address more than there is room for, and a token that is taken for an
IPv4 address because of the one before it. -/
theorem not_listedRight :
    ¬ListedRight (fun _ => '\x00') (List.replicate 1001 "10.0.0.1".toList) ∧
      ¬ListedRight (fun _ => '\x00') ["10.0.0.1".toList, "a".toList] := by
  refine ⟨fun h => not_inBounds ?_ h.inBounds, fun h => ?_⟩
  · rw [List.length_replicate]
    decide
  · exact absurd h.list (by decide)

end NetProg.Rtt
