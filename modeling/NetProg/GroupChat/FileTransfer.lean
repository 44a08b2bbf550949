import NetProg.Lib.Memory

/-!
# Sending a file

`requestFileReqHandler` sends a file in messages of one size, a chunk in each and an empty
message at the end. It uses one `reply` for all of them, which is not initialised. The
requesting child of `requestFileCmdHandler` reads messages into `res`, which is not
initialised either, and appends the data to its file. A read may return fewer bytes than it
asks for, and returns none when the stream has ended.

`none` for the sender is a copy past the end of `buff` or `data`. For the receiver it is any
end but the `break`, a write from past the end of `data`, or no end within the reads. The calls
on the files and `send` are taken to succeed.
-/

namespace NetProg.GroupChat

open Lib (Memory)
open Lib.Memory

/-- `FILE_CHUNK_LEN`. -/
def fileChunkLen : ℕ :=
  500

/-- `sizeof(struct message)`. -/
def messageSize : ℕ :=
  1012

/-- The offset of `payload.file_reply.is_last`. -/
def isLastAt : ℕ :=
  4

/-- The offset of `payload.file_reply.data`. -/
def dataAt : ℕ :=
  5

/-- The offset of `payload.file_reply.len`. -/
def lenAt : ℕ :=
  508

/-- `FILE_REPLY`. -/
def fileReply : ℕ :=
  7

/-! ## The sender -/

/-- What `strcpy` copies of a chunk, but for the zero at the end. -/
def asString (chunk : List UInt8) : List UInt8 :=
  chunk.takeWhile fun b => b ≠ 0

/-- The reply for a chunk. `buff` has the chunk and zeros behind it. -/
def chunkReply (reply : Memory) (chunk : List UInt8) : Option Memory :=
  if (asString chunk).length < fileChunkLen then
    some ((reply.write lenAt (int32Bytes chunk.length)).write dataAt (asString chunk ++ [0]))
  else none

/-- The reply at the end of the file. -/
def lastReply (reply : Memory) : Memory :=
  ((reply.write isLastAt [1]).write lenAt (int32Bytes 0)).write dataAt [0]

/-- The loop of `requestFileReqHandler`. The result is what it sends. -/
def sendLoop (reply : Memory) (file : List UInt8) : Option (List Memory) :=
  if file = [] then some [lastReply reply]
  else do
    let reply ← chunkReply reply (file.take fileChunkLen)
    let rest ← sendLoop reply (file.drop fileChunkLen)
    some (reply :: rest)
termination_by file.length
decreasing_by
  have := List.length_pos_iff.2 ‹file ≠ []›
  simp only [List.length_drop, fileChunkLen]
  omega

/-- `requestFileReqHandler` from `msg_type` on. -/
def requestFileReqHandler (reply : Memory) (file : List UInt8) : Option (List Memory) :=
  sendLoop (reply.write 0 (int32Bytes fileReply)) file

/-- The bytes on the connection. -/
def stream (msgs : List Memory) (i : ℕ) : UInt8 :=
  (msgs[i / messageSize]?.getD fun _ => 0) (i % messageSize)

/-! ## The receiver -/

/-- The loop of the child. The reads return the next bytes of the stream, from `pos` on, as many
as the list says. The result is what has been written to the file. -/
def receiveLoop (bytes : ℕ → UInt8) : List ℕ → ℕ → Memory → List UInt8 → Option (List UInt8)
  | [], _, _, _ => none
  | n :: reads, pos, res, file =>
    let res := res.fill bytes pos n
    let len := res.int32 lenAt
    if res.int32 0 ≠ fileReply then none
    else if len < 0 ∨ fileChunkLen < len then none
    else
      let file := file ++ res.bytes dataAt len.toNat
      if res isLastAt ≠ 0 then some file else receiveLoop bytes reads (pos + n) res file

/-- How many messages a file takes. -/
def messageCount (file : List UInt8) : ℕ :=
  (file.length + (fileChunkLen - 1)) / fileChunkLen + 1

/-- How the reads cut a stream of `n` messages. -/
structure Segments (reads : List ℕ) (n : ℕ) : Prop where
  pos : ∀ k ∈ reads, 0 < k
  le : ∀ k ∈ reads, k ≤ messageSize
  sum_eq : reads.sum = n * messageSize

/-- The file arrives as it is and the loop ends. Behind the stream the reads return nothing. -/
def Arrives (file : List UInt8) (reads : List ℕ) (reply res : Memory) : Prop :=
  ∃ msgs, requestFileReqHandler reply file = some msgs ∧
    ∃ k, receiveLoop (stream msgs) (reads ++ List.replicate k 0) 0 res [] = some file

/-! ## The messages -/

section Messages

variable {reply r : Memory} {chunk : List UInt8}

/-- The reply for a chunk has its length and its text, and keeps everything else. -/
structure ChunkReply (reply : Memory) (chunk : List UInt8) (r : Memory) : Prop where
  length_lt : (asString chunk).length < fileChunkLen
  len : ∀ k (h : k < (int32Bytes chunk.length).length), r (lenAt + k) = (int32Bytes chunk.length)[k]
  text : ∀ k (h : k < (asString chunk).length), r (dataAt + k) = (asString chunk)[k]
  zero : r (dataAt + (asString chunk).length) = 0
  stale : ∀ k, (asString chunk).length < k → k < fileChunkLen → r (dataAt + k) = reply (dataAt + k)
  front : ∀ j < dataAt, r j = reply j
  back : ∀ j, lenAt + 4 ≤ j → r j = reply j

theorem chunkReply_spec (h : chunkReply reply chunk = some r) : ChunkReply reply chunk r := by
  unfold chunkReply at h
  split_ifs at h with hlt
  obtain rfl := Option.some.inj h
  have hbytes : (int32Bytes chunk.length).length = 4 := rfl
  have htext : (asString chunk ++ [0]).length = (asString chunk).length + 1 := List.length_append
  have hsize : fileChunkLen = 500 ∧ dataAt = 5 ∧ lenAt = 508 := ⟨rfl, rfl, rfl⟩
  constructor
  · exact hlt
  · intro k hk
    rw [write_of_outside (.inr (by omega)), write_add hk]
  · intro k hk
    rw [write_add (by omega), List.getElem_append_left hk]
  · rw [write_add (by omega), List.getElem_append_right le_rfl]
    simp
  · intro k hk hlt'
    rw [write_of_outside (.inr (by omega)), write_of_outside (.inl (by omega))]
  · intro j hj
    rw [write_of_outside (.inl (by omega)), write_of_outside (.inl (by omega))]
  · intro j hj
    rw [write_of_outside (.inr (by omega)), write_of_outside (.inr (by omega))]

/-- The last reply is marked, has no data and is a file reply like the others. -/
structure LastReply (reply r : Memory) : Prop where
  type : ∀ k < 4, r k = reply k
  isLast : r isLastAt = 1
  len : ∀ k < 4, r (lenAt + k) = 0

theorem lastReply_spec (reply : Memory) : LastReply reply (lastReply reply) := by
  have hbytes : (int32Bytes 0).length = 4 := rfl
  constructor
  · intro k hk
    rw [lastReply, write_of_outside (.inl (by simp [dataAt]; omega)),
      write_of_outside (.inl (by simp [lenAt]; omega)),
      write_of_outside (.inl (by simp [isLastAt]; omega))]
  · rw [lastReply, write_of_outside (.inl (by decide)), write_of_outside (.inl (by decide))]
    exact write_add (j := 0) (by decide)
  · intro k hk
    rw [lastReply, write_of_outside (.inr (by simp [lenAt, dataAt]; omega)), write_add (by omega)]
    match k, hk with
    | 0, _ | 1, _ | 2, _ | 3, _ => rfl

theorem asString_cases (chunk : List UInt8) :
    0 ∉ chunk ∧ asString chunk = chunk ∨ ∃ rest, chunk = asString chunk ++ 0 :: rest := by
  have happ : asString chunk ++ chunk.dropWhile (fun b => b ≠ 0) = chunk :=
    List.takeWhile_append_dropWhile
  have hmem : 0 ∉ asString chunk := fun h => by
    simpa using List.all_eq_true.1 List.all_takeWhile _ h
  cases hdrop : chunk.dropWhile fun b => b ≠ 0 with
  | nil =>
    rw [hdrop, List.append_nil] at happ
    exact .inl ⟨by rwa [happ] at hmem, happ⟩
  | cons b rest =>
    have hzero := List.head_dropWhile_not (fun b : UInt8 => decide (b ≠ 0)) (l := chunk)
      (by rw [hdrop]; exact List.cons_ne_nil b rest)
    simp only [hdrop, List.head_cons, decide_eq_false_iff_not, not_not] at hzero
    exact .inr ⟨rest, by rw [← hzero, ← hdrop, happ]⟩

/-- A chunk with no zero but perhaps at its end is copied whole. -/
theorem ChunkReply.bytes_eq (h : ChunkReply reply chunk r) (hzero : 0 ∉ chunk.dropLast) :
    r.bytes dataAt chunk.length = chunk := by
  refine bytes_eq_iff.2 fun k hk => ?_
  rcases asString_cases chunk with ⟨-, heq⟩ | ⟨rest, heq⟩
  · have hk' : k < (asString chunk).length := by
      rwa [heq]
    rw [h.text k hk', List.getElem_of_eq heq hk']
  · obtain rfl : rest = [] := by
      by_contra hne
      refine hzero ?_
      rw [heq, List.dropLast_append_of_ne_nil (List.cons_ne_nil 0 rest),
        List.dropLast_cons_of_ne_nil hne]
      exact List.mem_append_right _ List.mem_cons_self
    have hlength : chunk.length = (asString chunk).length + 1 := by
      conv_lhs => rw [heq, List.length_append, List.length_singleton]
    rcases Nat.lt_succ_iff_lt_or_eq.1 (hlength ▸ hk) with hlt | rfl
    · rw [h.text k hlt]
      conv_rhs => rw [List.getElem_of_eq heq hk, List.getElem_append_left hlt]
    · rw [h.zero, List.getElem_of_eq heq hk, List.getElem_append_right le_rfl]
      simp

/-- With a zero inside a chunk there is a byte behind what is copied. -/
theorem length_asString_lt_of_mem (hzero : 0 ∈ chunk.dropLast) :
    (asString chunk).length + 1 < chunk.length := by
  rcases asString_cases chunk with ⟨hnot, -⟩ | ⟨rest, heq⟩
  · exact absurd (List.mem_of_mem_dropLast hzero) hnot
  · have hrest : rest ≠ [] := by
      rintro rfl
      rw [heq, List.dropLast_concat] at hzero
      simpa using List.all_eq_true.1 List.all_takeWhile _ hzero
    have hpos := List.length_pos_iff.2 hrest
    have hlength : chunk.length = (asString chunk).length + (rest.length + 1) := by
      conv_lhs => rw [heq, List.length_append, List.length_cons]
    omega

theorem ChunkReply.len_eq (h : ChunkReply reply chunk r) (hlen : chunk.length ≤ fileChunkLen) :
    r.int32 lenAt = chunk.length :=
  int32_eq (hlen.trans_lt (by decide)) h.len

theorem ChunkReply.type_eq (h : ChunkReply reply chunk r) (htype : reply.int32 0 = fileReply) :
    r.int32 0 = fileReply := by
  rw [← htype]
  exact int32_congr fun k hk => h.front (0 + k) (by simp [dataAt]; omega)

theorem sendLoop_nil (reply : Memory) : sendLoop reply [] = some [lastReply reply] := by
  rw [sendLoop, if_pos rfl]

/-- The messages that are sent are those that are counted. -/
theorem length_of_sendLoop {file : List UInt8} {msgs : List Memory}
    (h : sendLoop reply file = some msgs) : msgs.length = messageCount file := by
  fun_induction sendLoop reply file generalizing msgs with
  | case1 reply =>
    obtain rfl := Option.some.inj h
    rfl
  | case2 reply file hfile ih =>
    obtain ⟨r, hr, h⟩ := Option.bind_eq_some_iff.1 h
    obtain ⟨rest, hrest, h⟩ := Option.bind_eq_some_iff.1 h
    obtain rfl := Option.some.inj h
    have hpos := List.length_pos_iff.2 hfile
    rw [List.length_cons, ih r hrest, messageCount, messageCount, List.length_drop, fileChunkLen]
    omega

/-- The first message of a file that is not empty. -/
theorem exists_cons_of_send {file : List UInt8} {msgs : List Memory} (hfile : file ≠ [])
    (h : requestFileReqHandler reply file = some msgs) :
    ∃ r rest, msgs = r :: rest ∧
      ChunkReply (reply.write 0 (int32Bytes fileReply)) (file.take fileChunkLen) r ∧
        sendLoop r (file.drop fileChunkLen) = some rest := by
  rw [requestFileReqHandler, sendLoop, if_neg hfile] at h
  obtain ⟨r, hr, h⟩ := Option.bind_eq_some_iff.1 h
  obtain ⟨rest, hrest, h⟩ := Option.bind_eq_some_iff.1 h
  obtain rfl := Option.some.inj h
  exact ⟨r, rest, rfl, chunkReply_spec hr, hrest⟩

end Messages

/-! ## The turns of the child -/

section Turns

variable {bytes : ℕ → UInt8} {n pos : ℕ} {reads : List ℕ} {res : Memory} {file : List UInt8}

theorem stream_of_lt {r : Memory} {msgs : List Memory} {i : ℕ} (h : i < messageSize) :
    stream (r :: msgs) i = r i := by
  rw [stream, Nat.div_eq_of_lt h, Nat.mod_eq_of_lt h]
  rfl

theorem stream_add {r : Memory} {msgs : List Memory} {i : ℕ} :
    stream (r :: msgs) (messageSize + i) = stream msgs i := by
  rw [stream, Nat.add_div_left _ (by decide), Nat.add_mod_left]
  rfl

/-- A turn that finds a file reply of a length that is right. -/
theorem receiveLoop_cons {L : ℕ} (htype : (res.fill bytes pos n).int32 0 = fileReply)
    (hlen : (res.fill bytes pos n).int32 lenAt = L) (hle : L ≤ fileChunkLen) :
    receiveLoop bytes (n :: reads) pos res file =
      if res.fill bytes pos n isLastAt ≠ 0 then
        some (file ++ (res.fill bytes pos n).bytes dataAt L)
      else
        receiveLoop bytes reads (pos + n) (res.fill bytes pos n)
          (file ++ (res.fill bytes pos n).bytes dataAt L) := by
  rw [receiveLoop, if_neg (not_not.2 htype), hlen, if_neg (by omega), Int.toNat_natCast]

theorem receiveLoop_of_type (h : (res.fill bytes pos n).int32 0 ≠ fileReply) :
    receiveLoop bytes (n :: reads) pos res file = none := by
  rw [receiveLoop, if_pos h]

theorem receiveLoop_of_len (h : (res.fill bytes pos n).int32 lenAt < 0) :
    receiveLoop bytes (n :: reads) pos res file = none := by
  simp only [receiveLoop, if_pos (Or.inl h), ite_self]

/-- The turn of a chunk, with a read that gets the fields of its message. -/
theorem receiveLoop_chunk {reply r : Memory} {chunk : List UInt8} (hc : ChunkReply reply chunk r)
    (hlen : chunk.length ≤ fileChunkLen) (htype : reply.int32 0 = fileReply)
    (hle : lenAt + 4 ≤ n) (hread : ∀ j < n, bytes (pos + j) = r j) :
    receiveLoop bytes (n :: reads) pos res file =
      if reply isLastAt ≠ 0 then some (file ++ r.bytes dataAt chunk.length)
      else receiveLoop bytes reads (pos + n) (res.fill bytes pos n)
        (file ++ r.bytes dataAt chunk.length) := by
  have hfill : ∀ j < n, res.fill bytes pos n j = r j := fun j hj => by
    rw [fill_of_lt hj, hread j hj]
  have hsize : fileChunkLen = 500 ∧ dataAt = 5 ∧ lenAt = 508 ∧ isLastAt = 4 := ⟨rfl, rfl, rfl, rfl⟩
  have htype' : (res.fill bytes pos n).int32 0 = fileReply := by
    rw [← hc.type_eq htype]
    exact int32_congr fun k hk => hfill _ (by omega)
  have hlen' : (res.fill bytes pos n).int32 lenAt = chunk.length := by
    rw [← hc.len_eq hlen]
    exact int32_congr fun k hk => hfill _ (by omega)
  have hdata : (res.fill bytes pos n).bytes dataAt chunk.length = r.bytes dataAt chunk.length :=
    bytes_congr fun k hk => hfill _ (by omega)
  rw [receiveLoop_cons htype' hlen' hlen, hdata, hfill isLastAt (by omega),
    hc.front isLastAt (by omega)]

/-- The turn of the last message, with a read that gets its fields. -/
theorem receiveLoop_lastReply {reply r : Memory} (hlast : LastReply reply r)
    (htype : reply.int32 0 = fileReply) (hle : lenAt + 4 ≤ n)
    (hread : ∀ j < n, bytes (pos + j) = r j) :
    receiveLoop bytes (n :: reads) pos res file = some file := by
  have hfill : ∀ j < n, res.fill bytes pos n j = r j := fun j hj => by
    rw [fill_of_lt hj, hread j hj]
  have hsize : lenAt = 508 ∧ isLastAt = 4 := ⟨rfl, rfl⟩
  have htype' : (res.fill bytes pos n).int32 0 = fileReply := by
    rw [← htype]
    refine int32_congr fun k hk => ?_
    rw [hfill _ (by omega)]
    exact hlast.type (0 + k) (by omega)
  have hlen : (res.fill bytes pos n).int32 lenAt = (0 : ℕ) := by
    refine int32_eq (by decide) fun k hk => ?_
    have hk' : k < 4 := hk
    rw [hfill _ (by omega), hlast.len k hk']
    match k, hk' with
    | 0, _ | 1, _ | 2, _ | 3, _ => rfl
  rw [receiveLoop_cons htype' hlen (Nat.zero_le _), hfill _ (by omega), hlast.isLast,
    if_pos (by decide)]
  exact congrArg some (List.append_nil file)

/-- What has been written stays. -/
theorem prefix_of_receiveLoop {out : List UInt8}
    (h : receiveLoop bytes reads pos res file = some out) : file <+: out := by
  induction reads generalizing pos res file with
  | nil => cases h
  | cons n reads ih =>
    rw [receiveLoop] at h
    split_ifs at h
    · obtain rfl := Option.some.inj h
      exact List.prefix_append _ _
    · exact (List.prefix_append _ _).trans (ih h)

/-- When every read gets a whole message, no message is marked before the last and `strcpy` copies
every chunk whole, a file of any length is received. -/
theorem receiveLoop_of_sendLoop {reply : Memory} {msgs : List Memory}
    (hsend : sendLoop reply file = some msgs) (htype : reply.int32 0 = fileReply)
    (hmark : reply isLastAt = 0)
    (hzero : ∀ i, 0 ∉ ((file.drop (i * fileChunkLen)).take fileChunkLen).dropLast)
    (hread : ∀ i, bytes (pos + i) = stream msgs i) (out : List UInt8) :
    receiveLoop bytes (List.replicate (messageCount file) messageSize) pos res out =
      some (out ++ file) := by
  fun_induction sendLoop reply file generalizing pos res msgs out with
  | case1 reply =>
    obtain rfl := Option.some.inj hsend
    rw [List.append_nil]
    exact receiveLoop_lastReply (lastReply_spec reply) htype (by decide) fun j hj => by
      rw [hread, stream_of_lt hj]
  | case2 reply file hfile ih =>
    obtain ⟨r, hr, hsend⟩ := Option.bind_eq_some_iff.1 hsend
    obtain ⟨rest, hrest, hsend⟩ := Option.bind_eq_some_iff.1 hsend
    obtain rfl := Option.some.inj hsend
    have hc := chunkReply_spec hr
    have hcount : messageCount file = messageCount (file.drop fileChunkLen) + 1 := by
      have hpos := List.length_pos_iff.2 hfile
      rw [messageCount, messageCount, List.length_drop, fileChunkLen]
      omega
    have hfirst : 0 ∉ (file.take fileChunkLen).dropLast := by
      simpa using hzero 0
    rw [hcount, List.replicate_succ,
      receiveLoop_chunk hc (List.length_take_le _ _) htype (by decide) fun j hj => by
        rw [hread, stream_of_lt hj],
      if_neg (not_not.2 hmark), hc.bytes_eq hfirst,
      ih r hrest (hc.type_eq htype) ((hc.front _ (by decide)).trans hmark) ?_ ?_,
      List.append_assoc, List.take_append_drop]
    · intro i
      rw [List.drop_drop, Nat.add_comm, ← Nat.succ_mul]
      exact hzero (i + 1)
    · intro i
      rw [Nat.add_assoc, hread, stream_add]

end Turns

end NetProg.GroupChat
