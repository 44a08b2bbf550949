import NetProg.GroupChat.FileTransfer

/-!
# When a file arrives

Whatever the two structs that are not initialised contain, `arrives_iff` says which files
arrive, and with which reads : an empty file when the first read gets the fields of the
message, and a file of one chunk that `strcpy` copies whole when the first read gets the whole
message and the second one the fields of the last.

The other files are lost to what was in the structs. A second chunk is not received when the
first message is marked as the last, a zero inside a chunk leaves old bytes behind it, and
after a short read the next message begins with bytes that were never set. A file of any length
arrives when none of this happens (`arrives_of_unmarked`).
-/

namespace NetProg.GroupChat

open Lib (Memory)
open Lib.Memory

/-- The reads get from a message what the child looks at. -/
def ReadsFit (file : List UInt8) (reads : List ℕ) : Prop :=
  if file = [] then ∃ n ∈ reads.head?, lenAt + 4 ≤ n
  else reads.head? = some messageSize ∧
    ∃ n ∈ reads.tail.head?, lenAt + 2 ≤ n ∨ n = lenAt + 1 ∧ file.length < 256

/-- The file is at most one chunk, and `strcpy` copies it whole. -/
structure CopiedWhole (file : List UInt8) : Prop where
  length_le : file.length ≤ fileChunkLen
  notMem : 0 ∉ file.dropLast
  zero_of_full : file.length = fileChunkLen → 0 ∈ file

/-- A struct of one byte throughout, but for the mark of the last message. -/
def junk (mark b : UInt8) : Memory :=
  fun j => if j = isLastAt then mark else b

/-! ## The last message -/

section LastTurn

variable {reply r last m : Memory} {chunk : List UInt8} {n : ℕ}

/-- The length that is found when only `n` bytes of the last message replace those of a chunk of
length `L`. -/
def staleLen (L n : ℕ) : ℕ :=
  if n ≤ lenAt then L else if n = lenAt + 1 then 256 * (L / 256) else 0

theorem staleLen_eq_zero_iff {L : ℕ} (hL : 0 < L) :
    staleLen L n = 0 ↔ lenAt + 2 ≤ n ∨ n = lenAt + 1 ∧ L < 256 := by
  unfold staleLen
  split_ifs <;> omega

/-- The first `n` bytes of the last message on top of a chunk. -/
structure Mixed (r last m : Memory) (n : ℕ) : Prop where
  read : ∀ j < n, j < messageSize → m j = last j
  stale : ∀ j, n ≤ j → j < messageSize → m j = r j

theorem Mixed.type_eq (h : Mixed r last m n) (hlast : LastReply r last)
    (htype : r.int32 0 = fileReply) : m.int32 0 = fileReply := by
  rw [← htype]
  refine int32_congr fun k hk => ?_
  have hsize : 0 + k < messageSize := by
    rw [messageSize]
    omega
  rcases lt_or_ge (0 + k) n with hlt | hge
  · rw [h.read _ hlt hsize]
    exact hlast.type (0 + k) (by omega)
  · exact h.stale _ hge hsize

theorem Mixed.len_eq (h : Mixed r last m n) (hlast : LastReply r last)
    (hc : ChunkReply reply chunk r) (hlen : chunk.length ≤ fileChunkLen) :
    m.int32 lenAt = staleLen chunk.length n := by
  have hsize : fileChunkLen = 500 ∧ lenAt = 508 ∧ messageSize = 1012 := ⟨rfl, rfl, rfl⟩
  have hbytes : (int32Bytes chunk.length).length = 4 := rfl
  have hread : ∀ k < 4, lenAt + k < n → m (lenAt + k) = 0 := fun k hk hlt => by
    rw [h.read _ hlt (by omega), hlast.len k hk]
  have hstale : ∀ k (hk : k < (int32Bytes chunk.length).length), n ≤ lenAt + k →
      m (lenAt + k) = (int32Bytes chunk.length)[k] := fun k hk hge => by
    rw [h.stale _ hge (by omega), hc.len k hk]
  -- the two high bytes of a length are zero
  have hhigh : ∀ k, 2 ≤ k → k < 4 → m (lenAt + k) = 0 := fun k hk hlt => by
    rcases lt_or_ge (lenAt + k) n with hltn | hge
    · exact hread k hlt hltn
    · rw [hstale k hlt hge]
      obtain rfl | rfl : k = 2 ∨ k = 3 := by omega
      · exact congrArg UInt8.ofNat (Nat.div_eq_of_lt (by omega : chunk.length < 65536))
      · exact congrArg UInt8.ofNat (Nat.div_eq_of_lt (by omega : chunk.length < 16777216))
  have h0 : (m lenAt).toNat = if n ≤ lenAt then chunk.length % 256 else 0 := by
    split_ifs with hn
    · have : m (lenAt + 0) = .ofNat chunk.length := hstale 0 (by omega) hn
      rw [Nat.add_zero] at this
      rw [this, UInt8.toNat_ofNat']
    · have := hread 0 (by decide) (not_le.1 hn)
      rw [Nat.add_zero] at this
      rw [this]
      rfl
  have h1 : (m (lenAt + 1)).toNat = if n ≤ lenAt + 1 then chunk.length / 256 % 256 else 0 := by
    split_ifs with hn
    · have : m (lenAt + 1) = .ofNat (chunk.length / 256) := hstale 1 (by omega) hn
      rw [this, UInt8.toNat_ofNat']
    · rw [hread 1 (by decide) (not_le.1 hn)]
      rfl
  have hzero : (0 : UInt8).toNat = 0 := rfl
  simp only [int32, h0, h1, hhigh 2 le_rfl (by decide), hhigh 3 (by decide) (by decide), hzero,
    staleLen]
  split_ifs <;> omega

theorem Mixed.isLast_eq (h : Mixed r last m n) (hlast : LastReply r last)
    (hc : ChunkReply reply chunk r) : m isLastAt = if isLastAt < n then 1 else reply isLastAt := by
  split_ifs with hn
  · rw [h.read _ hn (by decide), hlast.isLast]
  · rw [h.stale _ (not_lt.1 hn) (by decide), hc.front _ (by decide)]

/-- The turn of the last message writes nothing more when the length in it is read. -/
theorem receiveLoop_last_iff {bytes : ℕ → UInt8} {res : Memory} {reads : List ℕ}
    {file : List UInt8} (hm : Mixed r last (res.fill bytes messageSize n) n)
    (hlast : LastReply r last) (hc : ChunkReply reply chunk r) (hlen : chunk.length ≤ fileChunkLen)
    (hpos : 0 < chunk.length) (htype : reply.int32 0 = fileReply) :
    receiveLoop bytes (n :: reads) messageSize res file = some file ↔
      lenAt + 2 ≤ n ∨ n = lenAt + 1 ∧ chunk.length < 256 := by
  have hle : staleLen chunk.length n ≤ fileChunkLen := by
    unfold staleLen
    split_ifs <;> omega
  rw [receiveLoop_cons (hm.type_eq hlast (hc.type_eq htype)) (hm.len_eq hlast hc hlen) hle,
    ← staleLen_eq_zero_iff hpos]
  constructor
  · intro h
    have hprefix : file ++ (res.fill bytes messageSize n).bytes dataAt (staleLen chunk.length n) <+:
        file := by
      split_ifs at h
      · rw [Option.some.inj h]
      · exact prefix_of_receiveLoop h
    have hlength := hprefix.length_le
    rw [List.length_append, length_bytes] at hlength
    omega
  · intro h
    have hn : isLastAt < n := by
      rcases (staleLen_eq_zero_iff hpos).1 h with hn | ⟨rfl, -⟩
      · exact lt_of_lt_of_le (by decide) hn
      · decide
    rw [hm.isLast_eq hlast hc, if_pos hn, if_pos (by decide), h]
    exact congrArg some (List.append_nil file)

end LastTurn

/-! ## Which files arrive -/

section Arrival

variable {file : List UInt8} {reads : List ℕ} {n : ℕ}

theorem type_write (reply : Memory) : (reply.write 0 (int32Bytes fileReply)).int32 0 = fileReply :=
  int32_write (by decide)

theorem stream_first {r : Memory} {msgs : List Memory} {j : ℕ} (hj : j < messageSize) :
    stream (r :: msgs) (0 + j) = r j := by
  rw [Nat.zero_add, stream_of_lt hj]

theorem write_type_of_le (reply : Memory) {j : ℕ} (hj : 4 ≤ j) :
    reply.write 0 (int32Bytes fileReply) j = reply j := by
  have : (int32Bytes fileReply).length = 4 := rfl
  exact write_of_outside (.inr (by omega))

/-- With a struct that has no length the first read has to get one. -/
theorem lenAt_le_of_arrives {reply : Memory}
    (h : Arrives file (n :: reads) reply (junk 255 255)) : lenAt + 4 ≤ n := by
  by_contra hlt
  obtain ⟨msgs, -, k, hk⟩ := h
  rw [List.cons_append, receiveLoop_of_len] at hk
  · cases hk
  · refine int32_neg ?_
    rw [fill_of_le (by omega)]
    rfl

/-- The messages for a file of one chunk that is copied whole. -/
theorem exists_send (hfile : file ≠ []) (hc : CopiedWhole file) (reply : Memory) :
    ∃ r, ChunkReply (reply.write 0 (int32Bytes fileReply)) file r ∧
      requestFileReqHandler reply file = some [r, lastReply r] := by
  have hlt : (asString file).length < fileChunkLen := by
    rcases asString_cases file with ⟨hnot, heq⟩ | ⟨rest, heq⟩
    · rw [heq]
      exact lt_of_le_of_ne hc.length_le fun hfull => hnot (hc.zero_of_full hfull)
    · have hlength : file.length = (asString file).length + (rest.length + 1) := by
        conv_lhs => rw [heq, List.length_append, List.length_cons]
      have := hc.length_le
      omega
  have hsend : chunkReply (reply.write 0 (int32Bytes fileReply)) file = some _ := if_pos hlt
  refine ⟨_, chunkReply_spec hsend, ?_⟩
  rw [requestFileReqHandler, sendLoop, if_neg hfile, List.take_of_length_le hc.length_le, hsend,
    List.drop_of_length_le hc.length_le]
  simp only [Option.bind_eq_bind, Option.bind_some, sendLoop_nil]

/-- The first turn of a file that is not empty. -/
theorem exists_first_of_arrives {reply res : Memory} (hfile : file ≠ []) (hle : lenAt + 4 ≤ n)
    (hn : n ≤ messageSize) (h : Arrives file (n :: reads) reply res) :
    ∃ r rest k, ChunkReply (reply.write 0 (int32Bytes fileReply)) (file.take fileChunkLen) r ∧
      sendLoop r (file.drop fileChunkLen) = some rest ∧
        (if reply isLastAt ≠ 0 then some (r.bytes dataAt (file.take fileChunkLen).length)
        else receiveLoop (stream (r :: rest)) (reads ++ List.replicate k 0) n
          (res.fill (stream (r :: rest)) 0 n)
          (r.bytes dataAt (file.take fileChunkLen).length)) = some file := by
  obtain ⟨msgs, hmsgs, k, hk⟩ := h
  obtain ⟨r, rest, rfl, hc, hrest⟩ := exists_cons_of_send hfile hmsgs
  refine ⟨r, rest, k, hc, hrest, ?_⟩
  rwa [List.cons_append, receiveLoop_chunk hc (List.length_take_le _ _) (type_write reply) hle
    fun j hj => stream_first (hj.trans_le hn), write_type_of_le reply (by decide), Nat.zero_add,
    List.nil_append] at hk

/-- A first message that is marked as the last has to have the whole file, whatever else is in
the struct. -/
theorem copiedWhole_of_arrives (hfile : file ≠ []) (hle : lenAt + 4 ≤ n) (hn : n ≤ messageSize)
    (h : ∀ b, Arrives file (n :: reads) (junk 1 b) (junk 255 255)) : CopiedWhole file := by
  have hfirst : ∀ b, ∃ r,
      ChunkReply ((junk 1 b).write 0 (int32Bytes fileReply)) (file.take fileChunkLen) r ∧
        r.bytes dataAt (file.take fileChunkLen).length = file := by
    intro b
    obtain ⟨r, rest, k, hc, -, hr⟩ := exists_first_of_arrives hfile hle hn (h b)
    rw [if_pos (show junk 1 b isLastAt ≠ 0 from (by decide : (1 : UInt8) ≠ 0))] at hr
    exact ⟨r, hc, Option.some.inj hr⟩
  obtain ⟨r₀, hc₀, hr₀⟩ := hfirst 0
  obtain ⟨r₁, hc₁, hr₁⟩ := hfirst 1
  have hlength : file.length ≤ fileChunkLen := by
    rw [← hr₀, length_bytes]
    exact List.length_take_le _ _
  rw [List.take_of_length_le hlength] at hc₀ hr₀ hc₁ hr₁
  constructor
  · exact hlength
  · -- the byte behind the zero is one of the struct
    intro hzero
    have hlt := length_asString_lt_of_mem hzero
    have hk : ∀ {b : UInt8} {r : Memory},
        ChunkReply ((junk 1 b).write 0 (int32Bytes fileReply)) file r →
          r.bytes dataAt file.length = file → file[(asString file).length + 1] = b := by
      intro b r hc hr
      rw [← bytes_eq_iff.1 hr _ hlt, hc.stale _ (Nat.lt_succ_self _) (hlt.trans_le hlength),
        write_type_of_le _ (Nat.le_add_right_of_le (by decide))]
      exact if_neg (by simp only [dataAt, isLastAt]; omega)
    exact absurd ((hk hc₀ hr₀).symm.trans (hk hc₁ hr₁)) (by decide)
  · intro hfull
    rcases asString_cases file with ⟨-, heq⟩ | ⟨rest, heq⟩
    · exact absurd hc₀.length_lt (by rw [heq, hfull]; exact lt_irrefl _)
    · rw [heq]
      exact List.mem_append_right _ List.mem_cons_self

/-- The second read puts what it gets of the last message on top of the first one. -/
theorem mixed_of_fill {r last res : Memory} :
    Mixed r last ((res.fill (stream [r, last]) 0 messageSize).fill (stream [r, last]) messageSize n)
      n := by
  constructor
  · intro j hj hsize
    rw [fill_of_lt hj, stream_add, stream_of_lt hsize]
  · intro j hj hsize
    rw [fill_of_le hj, fill_of_lt hsize, stream_first hsize]

/-- The first read of a chunk has to be of the whole message, and the second one of the length. -/
theorem readsFit_of_arrives (hfile : file ≠ []) (hc : CopiedWhole file) (hle : lenAt + 4 ≤ n)
    (hreads : Segments (n :: reads) 2)
    (h : Arrives file (n :: reads) (junk 0 255) (junk 255 255)) :
    n = messageSize ∧ ∃ n' ∈ reads.head?, lenAt + 2 ≤ n' ∨ n' = lenAt + 1 ∧ file.length < 256 := by
  have hn : n ≤ messageSize := hreads.le n List.mem_cons_self
  obtain ⟨r, rest, k, hr, hrest, hturn⟩ := exists_first_of_arrives hfile hle hn h
  rw [if_neg (show ¬junk 0 255 isLastAt ≠ 0 from (by decide : ¬(0 : UInt8) ≠ 0)),
    List.take_of_length_le hc.length_le] at hturn
  rw [List.take_of_length_le hc.length_le] at hr
  rw [List.drop_of_length_le hc.length_le, sendLoop_nil] at hrest
  obtain rfl := Option.some.inj hrest
  cases reads with
  | nil =>
    have hsum := hreads.sum_eq
    rw [List.sum_singleton, messageSize] at hsum
    rw [messageSize] at hn
    omega
  | cons n' reads =>
    have hpos : 0 < n' := hreads.pos n' (List.mem_cons_of_mem n List.mem_cons_self)
    obtain rfl : n = messageSize := by
      -- the rest of the message is read as the next one, and begins with a byte of the struct
      by_contra hne
      have hlt : n < messageSize := lt_of_le_of_ne hn hne
      rw [List.cons_append, receiveLoop_of_type] at hturn
      · cases hturn
      · intro htype
        have hbyte := int32_emod (m := ((junk 255 255).fill (stream [r, lastReply r]) 0 n).fill
          (stream [r, lastReply r]) n n') (i := 0)
        have hjunk : junk 0 255 n = 255 := if_neg (by simp only [lenAt, isLastAt] at hle ⊢; omega)
        rw [htype, fill_of_lt hpos, Nat.add_zero, stream_of_lt hlt, hr.back n hle,
          write_type_of_le _ (le_trans (by decide) hle), hjunk] at hbyte
        exact absurd hbyte (by decide)
    refine ⟨rfl, n', rfl, ?_⟩
    rw [hr.bytes_eq hc.notMem, List.cons_append] at hturn
    exact (receiveLoop_last_iff mixed_of_fill (lastReply_spec r) hr hc.length_le
      (List.length_pos_iff.2 hfile) (type_write _)).1 hturn

/-- An empty file arrives when the first read gets the fields of the only message. -/
theorem arrives_nil (hle : lenAt + 4 ≤ n) (hn : n ≤ messageSize) (reply res : Memory) :
    Arrives [] (n :: reads) reply res := by
  refine ⟨_, sendLoop_nil _, 0, ?_⟩
  exact receiveLoop_lastReply (lastReply_spec _) (type_write reply) hle fun j hj =>
    stream_first (hj.trans_le hn)

/-- A file of one chunk that is copied whole arrives. -/
theorem arrives_of_copiedWhole (hfile : file ≠ []) (hc : CopiedWhole file)
    (hn : lenAt + 2 ≤ n ∨ n = lenAt + 1 ∧ file.length < 256) (reply res : Memory) :
    Arrives file (messageSize :: n :: reads) reply res := by
  obtain ⟨r, hr, hsend⟩ := exists_send hfile hc reply
  refine ⟨_, hsend, 0, ?_⟩
  rw [List.cons_append, receiveLoop_chunk hr hc.length_le (type_write reply) (by decide)
    fun j hj => stream_first hj, hr.bytes_eq hc.notMem, Nat.zero_add, List.nil_append]
  split_ifs with hmark
  · rfl
  · exact (receiveLoop_last_iff mixed_of_fill (lastReply_spec r) hr hc.length_le
      (List.length_pos_iff.2 hfile) (type_write _)).2 hn

/-- With whole reads and a struct that is not marked as the last, a file of any length arrives when
`strcpy` copies every chunk whole. -/
theorem arrives_of_unmarked {reply : Memory} {msgs : List Memory}
    (hsend : requestFileReqHandler reply file = some msgs) (hmark : reply isLastAt = 0)
    (hzero : ∀ i, 0 ∉ ((file.drop (i * fileChunkLen)).take fileChunkLen).dropLast) (res : Memory) :
    Arrives file (List.replicate (messageCount file) messageSize) reply res := by
  refine ⟨msgs, hsend, 0, ?_⟩
  rw [List.replicate_zero, List.append_nil]
  refine receiveLoop_of_sendLoop hsend (type_write reply) ?_ hzero (fun i => ?_) []
  · rw [write_type_of_le reply (by decide), hmark]
  · rw [Nat.zero_add]

/-- The files that arrive whatever is in the two structs, and the reads with which they do. -/
theorem arrives_iff (hreads : Segments reads (messageCount file)) :
    (∀ reply res, Arrives file reads reply res) ↔ CopiedWhole file ∧ ReadsFit file reads := by
  obtain ⟨n, reads, rfl⟩ : ∃ n rest, reads = n :: rest := by
    refine List.exists_cons_of_ne_nil ?_
    rintro rfl
    have hsum := hreads.sum_eq
    simp [messageCount, messageSize] at hsum
  have hn : n ≤ messageSize := hreads.le n List.mem_cons_self
  constructor
  · intro h
    have hle := lenAt_le_of_arrives (h (junk 0 255) (junk 255 255))
    rcases eq_or_ne file [] with rfl | hfile
    · refine ⟨⟨Nat.zero_le _, List.not_mem_nil, fun hfull => by cases hfull⟩, ?_⟩
      rw [ReadsFit, if_pos rfl]
      exact ⟨n, rfl, hle⟩
    · have hc := copiedWhole_of_arrives hfile hle hn fun b => h (junk 1 b) (junk 255 255)
      have hcount : messageCount file = 2 := by
        have hpos := List.length_pos_iff.2 hfile
        have hle := hc.length_le
        rw [fileChunkLen] at hle
        rw [messageCount, fileChunkLen]
        omega
      obtain ⟨rfl, hn'⟩ := readsFit_of_arrives hfile hc hle (hcount ▸ hreads)
        (h (junk 0 255) (junk 255 255))
      refine ⟨hc, ?_⟩
      rw [ReadsFit, if_neg hfile]
      exact ⟨rfl, hn'⟩
  · rintro ⟨hc, hfit⟩ reply res
    rw [ReadsFit] at hfit
    split_ifs at hfit with hfile
    · obtain ⟨n', hhead, hle⟩ := hfit
      obtain rfl := Option.some.inj hhead
      rw [hfile]
      exact arrives_nil hle hn reply res
    · obtain ⟨hhead, n', htail, hn'⟩ := hfit
      obtain rfl := Option.some.inj hhead
      obtain ⟨reads', rfl⟩ := List.head?_eq_some_iff.1 htail
      exact arrives_of_copiedWhole hfile hc hn' reply res

theorem arrives_twoBytes : Segments [1012, 1012] (messageCount [104, 105]) ∧
    ∀ reply res, Arrives [104, 105] [1012, 1012] reply res := by
  have hreads : Segments [1012, 1012] (messageCount [104, 105]) :=
    ⟨by decide, by decide, by decide⟩
  refine ⟨hreads, (arrives_iff hreads).2 ⟨⟨by decide, by decide, by decide⟩, ?_⟩⟩
  rw [ReadsFit, if_neg (List.cons_ne_nil 104 [105])]
  exact ⟨rfl, 1012, rfl, .inl (by decide)⟩

/-- A zero byte and what is behind it, with both structs cleared. -/
theorem not_arrives_zeroByte : Segments [1012, 1012] (messageCount [0, 1]) ∧
    ¬Arrives [0, 1] [1012, 1012] (fun _ => 0) fun _ => 0 := by
  refine ⟨⟨by decide, by decide, by decide⟩, fun h => ?_⟩
  obtain ⟨r, rest, k, hc, -, hturn⟩ :=
    exists_first_of_arrives (List.cons_ne_nil 0 [1]) (by decide) le_rfl h
  rw [if_neg (not_not.2 rfl)] at hturn
  have hdata : r.bytes dataAt 2 = [0, 1] :=
    (prefix_of_receiveLoop hturn).eq_of_length length_bytes
  have hlt : 1 < ([0, 1] : List UInt8).length := by decide
  have hone : r (dataAt + 1) = 1 := bytes_eq_iff.1 hdata 1 hlt
  rw [hc.stale 1 (by decide) (by decide)] at hone
  exact absurd hone (by decide)

end Arrival

end NetProg.GroupChat
