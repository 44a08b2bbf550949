import NetProg.Lib.HashMap
import NetProg.Rtt.Scheduler

/-!
# The table of unique addresses

`main` makes one proto for each address of the input file. For each token it looks up the
token as it is written, makes a proto, and inserts it under the canonical text of its
address, which fails for another spelling of an address that is there already. The proto is
stored in `sockets[unique_count]` in any case, and counts only after an insertion.

`inet_pton` and `inet_ntop` are the parameter `Inet`. What the program relies on is
`Inet.Lawful` : the canonical text of an address is parsed as that address, and the first
separator in it tells the family. `parseIpList` looks for that separator in the first ten
places of its buffer, past the end of a short token into what older tokens left there.
-/

namespace NetProg.Rtt

/-! ## Addresses as text -/

/-- `inet_pton` and `inet_ntop`. -/
structure Inet where
  pton4 : List Char → Option (BitVec 32)
  pton6 : List Char → Option (BitVec 128)
  ntop4 : BitVec 32 → List Char
  ntop6 : BitVec 128 → List Char

/-- The text has a separator in its first ten characters, and `sep` is the first one. -/
def SeparatedBy (sep : Char) (text : List Char) : Prop :=
  ∃ group rest, text = group ++ sep :: rest ∧ group.length < 10 ∧
    ∀ c ∈ group, c ≠ '.' ∧ c ≠ ':'

structure Inet.Lawful (inet : Inet) : Prop where
  pton4_ntop4 : ∀ a, inet.pton4 (inet.ntop4 a) = some a
  pton6_ntop6 : ∀ a, inet.pton6 (inet.ntop6 a) = some a
  ntop4_dot : ∀ a, SeparatedBy '.' (inet.ntop4 a)
  ntop6_colon : ∀ a, SeparatedBy ':' (inet.ntop6 a)

/-- `ip_struct`. -/
structure IpStruct where
  isV4 : Bool
  ip : List Char
deriving DecidableEq, Repr

/-- The buffer after `fscanf` stored a token in it. -/
def scanToken (buf : ℕ → Char) (token : List Char) : ℕ → Char := fun i =>
  if i < token.length then token.getD i '\x00' else if i = token.length then '\x00' else buf i

/-- The loop over the first ten places of the buffer. The flag starts as false. -/
def scanFamily (buf : ℕ → Char) : Bool :=
  ((List.range 10).findSome? fun i =>
    if buf i = '.' then some true else if buf i = ':' then some false else none).getD false

/-- `parseIpList`, from the buffer and the tokens of the file. `strdup` copies up to the
first NUL. -/
def parseIpList : (ℕ → Char) → List (List Char) → List IpStruct
  | _, [] => []
  | buf, token :: tokens =>
    ⟨scanFamily (scanToken buf token), token.takeWhile (· ≠ '\x00')⟩ ::
      parseIpList (scanToken buf token) tokens

/-- A `struct proto` with the address in `sasend`. -/
structure Sock where
  sasend : Addr
  proto : Proto
  icmpproto_eq : proto.icmpproto = sasend.family

/-- `initIp`. `sasend` is zero when `inet_pton` fails. -/
def IpStruct.initIp (inet : Inet) (ip : IpStruct) : Sock :=
  if ip.isV4 then ⟨.v4 ((inet.pton4 ip.ip).getD 0), Rtt.initIp .v4, rfl⟩
  else ⟨.v6 ((inet.pton6 ip.ip).getD 0), Rtt.initIp .v6, rfl⟩

/-- The canonical text of an address. -/
def Inet.text (inet : Inet) : Addr → List Char
  | .v4 a => inet.ntop4 a
  | .v6 a => inet.ntop6 a

/-- `getIpAddrFromProto`. -/
def Sock.getIpAddrFromProto (inet : Inet) (sock : Sock) : List Char :=
  inet.text sock.sasend

/-- The canonical text of the address of a token. -/
def IpStruct.canonical (inet : Inet) (ip : IpStruct) : List Char :=
  (ip.initIp inet).getIpAddrFromProto inet

/-! ## The hash map -/

/-- `HASH_MAP_SZ`. -/
def hashMapSz : ℕ :=
  7919

instance : NeZero hashMapSz :=
  ⟨by decide⟩

/-- `djb2Hash`. -/
def djb2Hash (mapSize : ℕ) [NeZero mapSize] (str : List Char) : Fin mapSize :=
  Fin.ofNat mapSize (str.foldl (fun hash c =>
    if c.isAlphanum then ((hash * 32 % mapSize + hash) % mapSize + c.toNat) % mapSize else hash)
    5381)

/-- `hash_map`. The data are pointers to protos. -/
abbrev ProtoMap :=
  HashMap (List Char) ℕ (djb2Hash hashMapSz)

/-- `find_in_map`. -/
def findInMap (map : ProtoMap) (toFind : List Char) : Option ℕ :=
  map.find toFind

/-- `insert_into_map`, when allocation succeeds. -/
def insertIntoMap (map : ProtoMap) (ip : List Char) (data : ℕ) : ℤ × ProtoMap :=
  if h : findInMap map ip = none then (0, map.insert ip data h) else (-2, map)

/-! ## The loop of `main` -/

/-- The protos that were allocated, by address, and the variables of `main`. -/
structure Table where
  heap : List Sock
  sockets : List (Option ℕ)
  uniqueCount : ℕ
  map : ProtoMap
  count : Family → ℤ

/-- The variables before the loop, for `count` tokens. -/
def Table.start (count : ℕ) : Table where
  heap := []
  sockets := List.replicate count none
  uniqueCount := 0
  map := .empty
  count _ := 0

/-- The proto that `sockets[j]` points to. -/
def Table.socket (t : Table) (j : ℕ) : Option Sock :=
  (t.sockets.getD j none).bind fun ptr => t.heap[ptr]?

/-- The canonical text of the address of `sockets[j]`. -/
def Table.name (inet : Inet) (t : Table) (j : ℕ) : Option (List Char) :=
  (t.socket j).map (Sock.getIpAddrFromProto inet)

/-- One iteration. -/
def Table.addIp (inet : Inet) (t : Table) (ip : IpStruct) : Table :=
  if findInMap t.map ip.ip = none then
    let ptr := t.heap.length
    let sock := ip.initIp inet
    let t := { t with heap := t.heap ++ [sock], sockets := t.sockets.set t.uniqueCount (some ptr) }
    let res := insertIntoMap t.map (sock.getIpAddrFromProto inet) ptr
    let t := { t with map := res.2 }
    if res.1 = 0 then
      { t with
        count := Function.update t.count sock.proto.icmpproto (t.count sock.proto.icmpproto + 1)
        uniqueCount := t.uniqueCount + 1 }
    else t
  else t

/-- The loop. -/
def initTable (inet : Inet) (ips : List IpStruct) : Table :=
  ips.foldl (Table.addIp inet) (.start ips.length)

/-- What the loop should leave behind. -/
structure UniqueTable (inet : Inet) (ips : List IpStruct) (t : Table) : Prop where
  named : ∀ j < t.uniqueCount, ∃ text, t.name inet j = some text
  distinct : ∀ i < t.uniqueCount, ∀ j < t.uniqueCount, t.name inet i = t.name inet j → i = j
  complete : ∀ ip ∈ ips, ∃ j < t.uniqueCount, t.name inet j = some (ip.canonical inet)
  found : ∀ j < t.uniqueCount, ∀ text, t.name inet j = some text →
    findInMap t.map text = t.sockets.getD j none
  only : ∀ text, findInMap t.map text ≠ none → ∃ j < t.uniqueCount, t.name inet j = some text
  total : t.count .v4 + t.count .v6 = t.uniqueCount
  countV4 : t.count .v4 =
    (List.range t.uniqueCount).countP fun j => (t.socket j).any (·.proto.icmpproto = .v4)

/-! ## The family of a token -/

/-- The flag of a token with an early separator is what the separator says. -/
def IpStruct.Flagged (ip : IpStruct) : Prop :=
  (SeparatedBy '.' ip.ip → ip.isV4 = true) ∧ (SeparatedBy ':' ip.ip → ip.isV4 = false)

/-- The scan stops at the first separator. -/
theorem scanFamily_eq {buf : ℕ → Char} {i : ℕ} (hi : i < 10)
    (hbefore : ∀ j < i, buf j ≠ '.' ∧ buf j ≠ ':') (hsep : buf i = '.' ∨ buf i = ':') :
    scanFamily buf = decide (buf i = '.') := by
  obtain ⟨r, hr⟩ := Nat.exists_eq_add_of_lt hi
  rw [scanFamily, show 10 = i + (r + 1) by omega, List.range_add, List.findSome?_append,
    List.findSome?_eq_none_iff.2, Option.none_or, List.range_succ_eq_map, List.map_cons,
    List.findSome?_cons]
  · rcases hsep with hdot | hcolon
    · simp [hdot]
    · simp [hcolon]
  · intro j hj
    obtain ⟨hdot, hcolon⟩ := hbefore j (List.mem_range.1 hj)
    rw [if_neg hdot, if_neg hcolon]

section ScanToken

variable {buf : ℕ → Char} {token : List Char} {i : ℕ}

theorem scanToken_of_getElem? {c : Char} (hc : token[i]? = some c) : scanToken buf token i = c := by
  have hlt := (List.getElem?_eq_some_iff.1 hc).1
  rw [scanToken, if_pos hlt, List.getD_eq_getElem?_getD, hc, Option.getD_some]

theorem scanToken_length : scanToken buf token token.length = '\x00' := by
  rw [scanToken, if_neg (lt_irrefl _), if_pos rfl]

theorem scanToken_of_lt (hi : token.length < i) : scanToken buf token i = buf i := by
  rw [scanToken, if_neg (by omega), if_neg hi.ne']

end ScanToken

theorem scanFamily_scanToken {buf : ℕ → Char} {token : List Char} {sep : Char}
    (hsep : sep = '.' ∨ sep = ':') (h : SeparatedBy sep (token.takeWhile (· ≠ '\x00'))) :
    scanFamily (scanToken buf token) = decide (sep = '.') := by
  obtain ⟨group, rest, heq, hlen, hgroup⟩ := h
  -- the token goes on after the part that is copied
  obtain ⟨tail, htail⟩ : ∃ tail, token = group ++ sep :: (rest ++ tail) := by
    refine ⟨token.dropWhile (· ≠ '\x00'), ?_⟩
    conv_lhs => rw [← List.takeWhile_append_dropWhile (p := (· ≠ '\x00')) (l := token), heq]
    simp
  have hget : scanToken buf token group.length = sep := scanToken_of_getElem? (by simp [htail])
  rw [scanFamily_eq hlen, hget]
  · intro j hj
    have hchar : scanToken buf token j = group[j] := by
      refine scanToken_of_getElem? ?_
      rw [htail, List.getElem?_append_left hj, List.getElem?_eq_getElem hj]
    exact hchar ▸ hgroup _ (List.getElem_mem hj)
  · exact hget ▸ hsep

theorem flagged_of_mem_parseIpList {buf : ℕ → Char} {tokens : List (List Char)} {ip : IpStruct}
    (h : ip ∈ parseIpList buf tokens) : ip.Flagged := by
  induction tokens generalizing buf with
  | nil => exact absurd h List.not_mem_nil
  | cons token tokens ih =>
    rcases List.mem_cons.1 h with rfl | h
    · exact ⟨scanFamily_scanToken (.inl rfl), scanFamily_scanToken (.inr rfl)⟩
    · exact ih h

variable {inet : Inet}

/-- A token that is the canonical text of an address has that text as its canonical text. -/
theorem canonical_of_eq_text (hinet : inet.Lawful) {ip : IpStruct} (hflag : ip.Flagged) {a : Addr}
    (h : ip.ip = inet.text a) : ip.canonical inet = ip.ip := by
  cases a with
  | v4 a =>
    have hv4 : ip.isV4 = true := hflag.1 (h ▸ hinet.ntop4_dot a)
    have hip : ip.ip = inet.ntop4 a := h
    rw [IpStruct.canonical, IpStruct.initIp, if_pos hv4, hip, hinet.pton4_ntop4]
    rfl
  | v6 a =>
    have hv6 : ip.isV4 = false := hflag.2 (h ▸ hinet.ntop6_colon a)
    have hip : ip.ip = inet.ntop6 a := h
    rw [IpStruct.canonical, IpStruct.initIp, if_neg (by simp [hv6]), hip, hinet.pton6_ntop6]
    rfl

/-! ## The loop -/

/-- `rows` are the pointers in `sockets` up to `unique_count` with the protos they lead to,
after the tokens `done` of `n`. -/
structure TableInv (inet : Inet) (n : ℕ) (done : List IpStruct) (t : Table)
    (rows : List (ℕ × Sock)) : Prop where
  uniqueCount : t.uniqueCount = rows.length
  room : rows.length ≤ done.length
  size : t.sockets.length = n
  stored : ∀ (j : ℕ) (r : ℕ × Sock), rows[j]? = some r →
    t.sockets[j]? = some (some r.1) ∧ t.heap[r.1]? = some r.2
  distinct : (rows.map fun r => r.2.getIpAddrFromProto inet).Nodup
  find : ∀ text p, findInMap t.map text = some p ↔
    ∃ r ∈ rows, r.1 = p ∧ r.2.getIpAddrFromProto inet = text
  complete : ∀ ip ∈ done, ∃ r ∈ rows, r.2.getIpAddrFromProto inet = ip.canonical inet
  count : ∀ fam, t.count fam = rows.countP fun r => r.2.sasend.family = fam

theorem tableInv_start (inet : Inet) (n : ℕ) : TableInv inet n [] (.start n) [] where
  uniqueCount := rfl
  room := le_rfl
  size := List.length_replicate
  stored j r h := by simp at h
  distinct := List.nodup_nil
  find text p := by simp [Table.start, findInMap]
  complete ip h := absurd h List.not_mem_nil
  count _ := rfl

variable {n : ℕ} {done : List IpStruct} {t : Table} {rows : List (ℕ × Sock)}

/-- The new proto and the write to `sockets[unique_count]` do not touch the rows. -/
theorem TableInv.stored_alloc (h : TableInv inet n done t rows) (sock : Sock) (v : Option ℕ)
    {j : ℕ} {r : ℕ × Sock} (hr : rows[j]? = some r) :
    (t.sockets.set t.uniqueCount v)[j]? = some (some r.1) ∧
      (t.heap ++ [sock])[r.1]? = some r.2 := by
  obtain ⟨hsocket, hheap⟩ := h.stored j r hr
  have hj : j < rows.length := (List.getElem?_eq_some_iff.1 hr).1
  have hptr : r.1 < t.heap.length := (List.getElem?_eq_some_iff.1 hheap).1
  rw [List.getElem?_set_ne (by rw [h.uniqueCount]; omega), List.getElem?_append_left hptr]
  exact ⟨hsocket, hheap⟩

/-- The token, or its address, is in the table already. -/
theorem TableInv.known (h : TableInv inet n done t rows) {ip : IpStruct} {t' : Table}
    (hknown : ∃ r ∈ rows, r.2.getIpAddrFromProto inet = ip.canonical inet)
    (hstored : ∀ (j : ℕ) (r : ℕ × Sock), rows[j]? = some r →
      t'.sockets[j]? = some (some r.1) ∧ t'.heap[r.1]? = some r.2)
    (hsize : t'.sockets.length = n) (hunique : t'.uniqueCount = t.uniqueCount)
    (hmap : t'.map = t.map) (hcount : t'.count = t.count) :
    TableInv inet n (done ++ [ip]) t' rows where
  uniqueCount := hunique.trans h.uniqueCount
  room := h.room.trans (by simp)
  size := hsize
  stored := hstored
  distinct := h.distinct
  find := hmap ▸ h.find
  complete ip' hip' := by
    rcases List.mem_append.1 hip' with hold | hnew
    · exact h.complete ip' hold
    · exact List.mem_singleton.1 hnew ▸ hknown
  count := hcount ▸ h.count

/-- The rows with the new one are those that the table leads to. -/
theorem TableInv.stored_append (h : TableInv inet n done t rows) (hroom : done.length < n)
    (sock : Sock) {j : ℕ} {r : ℕ × Sock} (hr : (rows ++ [(t.heap.length, sock)])[j]? = some r) :
    (t.sockets.set t.uniqueCount (some t.heap.length))[j]? = some (some r.1) ∧
      (t.heap ++ [sock])[r.1]? = some r.2 := by
  rcases Nat.lt_or_ge j rows.length with hj | hj
  · rw [List.getElem?_append_left hj] at hr
    exact h.stored_alloc _ _ hr
  · rw [List.getElem?_append_right hj] at hr
    have hlast := (List.getElem?_eq_some_iff.1 hr).1
    obtain rfl : j = t.uniqueCount := by
      rw [List.length_singleton] at hlast
      rw [h.uniqueCount]
      omega
    rw [← h.uniqueCount, Nat.sub_self] at hr
    obtain rfl := Option.some.inj hr
    have hlt : t.uniqueCount < t.sockets.length := by
      have := h.room
      rw [h.uniqueCount, h.size]
      omega
    simp [List.getElem?_set_self hlt]

/-- A text that is not in the map is that of no row. -/
theorem TableInv.fresh (h : TableInv inet n done t rows) {text : List Char}
    (hnew : findInMap t.map text = none) {r : ℕ × Sock} (hr : r ∈ rows) :
    r.2.getIpAddrFromProto inet ≠ text := by
  intro heq
  have hfind := (h.find _ r.1).2 ⟨r, hr, rfl, heq⟩
  rw [hnew] at hfind
  cases hfind

/-- What the map finds with the new row. -/
theorem TableInv.find_append (h : TableInv inet n done t rows) {sock : Sock} {m : ProtoMap}
    (hnew : findInMap t.map (sock.getIpAddrFromProto inet) = none)
    (hm : ∀ text, findInMap m text =
      if text = sock.getIpAddrFromProto inet then some t.heap.length else findInMap t.map text)
    (text : List Char) (p : ℕ) : findInMap m text = some p ↔
      ∃ r ∈ rows ++ [(t.heap.length, sock)], r.1 = p ∧ r.2.getIpAddrFromProto inet = text := by
  rw [hm]
  simp only [List.mem_append, List.mem_singleton, or_and_right, exists_or, exists_eq_left]
  split
  · rename_i htext
    subst htext
    constructor
    · intro hp
      exact .inr ⟨Option.some.inj hp, rfl⟩
    · rintro (⟨r, hr, -, heq⟩ | ⟨rfl, -⟩)
      · exact absurd heq (h.fresh hnew hr)
      · rfl
  · rename_i htext
    rw [h.find]
    refine ⟨.inl, ?_⟩
    rintro (hold | ⟨-, heq⟩)
    · exact hold
    · exact absurd heq.symm htext

/-- The address of the token is new. -/
theorem TableInv.add (h : TableInv inet n done t rows) (hroom : done.length < n) {ip : IpStruct}
    (hnew : findInMap t.map (ip.canonical inet) = none) {m : ProtoMap}
    (hm : ∀ text, findInMap m text =
      if text = ip.canonical inet then some t.heap.length else findInMap t.map text) :
    TableInv inet n (done ++ [ip])
      { heap := t.heap ++ [ip.initIp inet]
        sockets := t.sockets.set t.uniqueCount (some t.heap.length)
        uniqueCount := t.uniqueCount + 1
        map := m
        count := Function.update t.count (ip.initIp inet).proto.icmpproto
          (t.count (ip.initIp inet).proto.icmpproto + 1) }
      (rows ++ [(t.heap.length, ip.initIp inet)]) where
  uniqueCount := by simp [h.uniqueCount]
  room := by simpa using h.room
  size := by simpa using h.size
  stored j r hr := h.stored_append hroom _ hr
  distinct := by
    rw [List.map_append, List.nodup_append]
    refine ⟨h.distinct, List.nodup_singleton _, fun a ha b hb => ?_⟩
    obtain ⟨r, hr, rfl⟩ := List.mem_map.1 ha
    obtain rfl := List.mem_singleton.1 hb
    exact h.fresh hnew hr
  find := h.find_append hnew hm
  complete ip' hip' := by
    rcases List.mem_append.1 hip' with hold | hlast
    · obtain ⟨r, hr, heq⟩ := h.complete ip' hold
      exact ⟨r, List.mem_append_left _ hr, heq⟩
    · obtain rfl := List.mem_singleton.1 hlast
      exact ⟨_, List.mem_append_right _ (List.mem_singleton_self _), rfl⟩
  count fam := by
    rw [List.countP_append, List.countP_singleton]
    by_cases hfam : fam = (ip.initIp inet).sasend.family
    · simp [hfam, h.count, (ip.initIp inet).icmpproto_eq]
    · simp [hfam, Ne.symm hfam, h.count, (ip.initIp inet).icmpproto_eq]

/-- One iteration. -/
theorem TableInv.addIp (hinet : inet.Lawful) (h : TableInv inet n done t rows)
    (hroom : done.length < n) {ip : IpStruct} (hflag : ip.Flagged) :
    ∃ rows', TableInv inet n (done ++ [ip]) (t.addIp inet ip) rows' := by
  unfold Table.addIp
  cases hraw : findInMap t.map ip.ip with
  | some p =>
    obtain ⟨r, hr, -, htext⟩ := (h.find _ p).1 hraw
    rw [if_neg (Option.some_ne_none p)]
    refine ⟨rows, h.known ⟨r, hr, ?_⟩ h.stored h.size rfl rfl rfl⟩
    rw [htext, canonical_of_eq_text hinet hflag htext.symm]
  | none =>
    rw [if_pos rfl]
    by_cases hkey : findInMap t.map (ip.canonical inet) = none
    · have hins : insertIntoMap t.map ((ip.initIp inet).getIpAddrFromProto inet) t.heap.length =
          (0, t.map.insert (ip.canonical inet) t.heap.length hkey) := dif_pos hkey
      simp only [hins, if_true]
      exact ⟨_, h.add hroom hkey fun text => HashMap.find_insert ..⟩
    · have hins : insertIntoMap t.map ((ip.initIp inet).getIpAddrFromProto inet) t.heap.length =
          (-2, t.map) := dif_neg hkey
      obtain ⟨p, hp⟩ := Option.ne_none_iff_exists'.1 hkey
      obtain ⟨r, hr, -, htext⟩ := (h.find _ p).1 hp
      simp only [hins]
      rw [if_neg (by decide)]
      exact ⟨rows, h.known ⟨r, hr, htext⟩ (fun j r => h.stored_alloc _ _)
        (by simpa using h.size) rfl rfl rfl⟩

/-- The loop from any table on the way. -/
theorem TableInv.addIps (hinet : inet.Lawful) {ips : List IpStruct} (hflag : ∀ ip ∈ ips, ip.Flagged)
    (h : TableInv inet n done t rows) (hroom : done.length + ips.length ≤ n) :
    ∃ rows', TableInv inet n (done ++ ips) (ips.foldl (Table.addIp inet) t) rows' := by
  induction ips generalizing done t rows with
  | nil => exact ⟨rows, (List.append_nil done).symm ▸ h⟩
  | cons ip ips ih =>
    obtain ⟨hip, hips⟩ := List.forall_mem_cons.1 hflag
    rw [List.length_cons] at hroom
    obtain ⟨rows', h'⟩ := h.addIp hinet (by omega) hip
    obtain ⟨rows'', h''⟩ := ih hips h' (by rw [List.length_append, List.length_singleton]; omega)
    rw [List.append_assoc, List.singleton_append] at h''
    exact ⟨rows'', h''⟩

/-! ## What the loop leaves behind -/

theorem TableInv.socket (h : TableInv inet n done t rows) {j : ℕ} {r : ℕ × Sock}
    (hr : rows[j]? = some r) : t.sockets.getD j none = some r.1 ∧ t.socket j = some r.2 := by
  obtain ⟨hsocket, hheap⟩ := h.stored j r hr
  have hget : t.sockets.getD j none = some r.1 := by
    rw [List.getD_eq_getElem?_getD, hsocket]
    rfl
  refine ⟨hget, ?_⟩
  rw [Table.socket, hget, Option.bind_some, hheap]

theorem TableInv.name (h : TableInv inet n done t rows) {j : ℕ} {r : ℕ × Sock}
    (hr : rows[j]? = some r) : t.name inet j = some (r.2.getIpAddrFromProto inet) := by
  rw [Table.name, (h.socket hr).2]
  rfl

theorem TableInv.exists_row (h : TableInv inet n done t rows) {j : ℕ} (hj : j < t.uniqueCount) :
    ∃ r ∈ rows, rows[j]? = some r := by
  rw [h.uniqueCount] at hj
  exact ⟨rows[j], List.getElem_mem hj, List.getElem?_eq_getElem hj⟩

theorem TableInv.exists_index (h : TableInv inet n done t rows) {r : ℕ × Sock} (hr : r ∈ rows) :
    ∃ j < t.uniqueCount, rows[j]? = some r := by
  obtain ⟨j, hj, rfl⟩ := List.mem_iff_getElem.1 hr
  exact ⟨j, h.uniqueCount ▸ hj, List.getElem?_eq_getElem hj⟩

/-- The protos that `sockets` leads to are those of the rows. -/
theorem TableInv.map_socket (h : TableInv inet n done t rows) :
    (List.range t.uniqueCount).map t.socket = rows.map fun r => some r.2 := by
  refine List.ext_getElem (by simp [h.uniqueCount]) fun j hj hj' => ?_
  rw [List.length_map] at hj'
  rw [List.getElem_map, List.getElem_map, List.getElem_range]
  exact (h.socket (List.getElem?_eq_getElem hj')).2

theorem TableInv.unique (h : TableInv inet n done t rows) : UniqueTable inet done t where
  named j hj := by
    obtain ⟨r, -, hr⟩ := h.exists_row hj
    exact ⟨_, h.name hr⟩
  distinct i hi j hj heq := by
    obtain ⟨r, -, hr⟩ := h.exists_row hi
    obtain ⟨r', -, hr'⟩ := h.exists_row hj
    rw [h.name hr, h.name hr', Option.some.injEq] at heq
    obtain ⟨hi', rfl⟩ := List.getElem?_eq_some_iff.1 hr
    obtain ⟨hj', rfl⟩ := List.getElem?_eq_some_iff.1 hr'
    have hdistinct := h.distinct
    generalize hips : (rows.map fun r => r.2.getIpAddrFromProto inet) = ips at hdistinct
    have hilt : i < ips.length := by rwa [← hips, List.length_map]
    have hjlt : j < ips.length := by rwa [← hips, List.length_map]
    have hip : ips[i] = ips[j] := by
      subst hips
      rw [List.getElem_map, List.getElem_map]
      exact heq
    exact hdistinct.getElem_inj_iff.1 hip
  complete ip hip := by
    obtain ⟨r, hr, heq⟩ := h.complete ip hip
    obtain ⟨j, hj, hget⟩ := h.exists_index hr
    exact ⟨j, hj, by rw [h.name hget, heq]⟩
  found j hj text htext := by
    obtain ⟨r, hmem, hr⟩ := h.exists_row hj
    rw [h.name hr, Option.some.injEq] at htext
    rw [(h.socket hr).1, h.find]
    exact ⟨r, hmem, rfl, htext⟩
  only text htext := by
    obtain ⟨p, hp⟩ := Option.ne_none_iff_exists'.1 htext
    obtain ⟨r, hr, -, heq⟩ := (h.find text p).1 hp
    obtain ⟨j, hj, hget⟩ := h.exists_index hr
    exact ⟨j, hj, by rw [h.name hget, heq]⟩
  total := by
    rw [h.count, h.count, h.uniqueCount,
      List.length_eq_countP_add_countP fun r : ℕ × Sock => r.2.sasend.family = .v4]
    push_cast
    congr 2
    refine List.countP_congr fun r _ => ?_
    cases r.2.sasend.family with
    | v4 => simp
    | v6 => simp
  countV4 := by
    have hmap := congrArg (List.countP (Option.any fun s => s.proto.icmpproto = .v4)) h.map_socket
    rw [List.countP_map, List.countP_map] at hmap
    rw [h.count, Nat.cast_inj]
    refine Eq.trans (List.countP_congr fun r _ => ?_) hmap.symm
    simp [r.2.icmpproto_eq]

theorem exists_tableInv_initTable (hinet : inet.Lawful) (buf : ℕ → Char)
    (tokens : List (List Char)) :
    ∃ n rows, TableInv inet n (parseIpList buf tokens)
      (initTable inet (parseIpList buf tokens)) rows := by
  obtain ⟨rows, h⟩ := (tableInv_start inet _).addIps hinet
    (fun ip hip => flagged_of_mem_parseIpList hip) (Nat.zero_add _).le
  exact ⟨_, rows, h⟩

/-- For every file and every content of the buffer before it is read, the loop leaves the
canonical addresses of the tokens, each once, in `sockets` and in the hash map. -/
theorem uniqueTable (inet : Inet) (hinet : inet.Lawful) (buf : ℕ → Char)
    (tokens : List (List Char)) :
    UniqueTable inet (parseIpList buf tokens) (initTable inet (parseIpList buf tokens)) := by
  obtain ⟨n, rows, h⟩ := exists_tableInv_initTable hinet buf tokens
  exact h.unique

/-- The threads start with the addresses and the counts of the table. -/
theorem TableInv.exists_config (h : TableInv inet n done t rows) (pid : ℕ) :
    ∃ cfg : Config, cfg.pid = pid ∧ (init cfg).count = t.count ∧
      (List.range t.uniqueCount).map (fun j => (t.socket j).map Sock.sasend) =
        cfg.addrs.map some := by
  have hnodup : (rows.map fun r => r.2.sasend).Nodup := by
    have hdistinct := h.distinct
    have hcomp : (rows.map fun r => r.2.getIpAddrFromProto inet) =
        (rows.map fun r => r.2.sasend).map inet.text := by
      rw [List.map_map]
      rfl
    rw [hcomp] at hdistinct
    exact hdistinct.of_map
  refine ⟨⟨pid, _, hnodup⟩, rfl, funext fun fam => ?_, ?_⟩
  · rw [h.count]
    exact congrArg Nat.cast List.countP_map
  · have hmap := congrArg (List.map (Option.map Sock.sasend)) h.map_socket
    rw [List.map_map, List.map_map] at hmap
    rw [List.map_map]
    exact hmap

theorem exists_config_initTable (hinet : inet.Lawful) (buf : ℕ → Char)
    (tokens : List (List Char)) (pid : ℕ) :
    ∃ cfg : Config, cfg.pid = pid ∧
      (init cfg).count = (initTable inet (parseIpList buf tokens)).count ∧
      (List.range (initTable inet (parseIpList buf tokens)).uniqueCount).map (fun j =>
        ((initTable inet (parseIpList buf tokens)).socket j).map Sock.sasend) =
          cfg.addrs.map some := by
  obtain ⟨n, rows, h⟩ := exists_tableInv_initTable hinet buf tokens
  exact h.exists_config pid

/-! ## Plain addresses -/

/-- The `k` last digits of a number, the highest first. -/
def digitsBe (b : ℕ) : ℕ → ℕ → List ℕ
  | 0, _ => []
  | k + 1, n => digitsBe b k (n / b) ++ [n % b]

/-- The number with these digits. -/
def ofDigitsBe (b : ℕ) (ds : List ℕ) : ℕ :=
  ds.foldl (fun acc d => acc * b + d) 0

theorem ofDigitsBe_digitsBe (b k n : ℕ) : ofDigitsBe b (digitsBe b k n) = n % b ^ k := by
  induction k generalizing n with
  | zero => simp [digitsBe, ofDigitsBe, Nat.mod_one]
  | succ k ih =>
    have hfold := ih (n / b)
    unfold ofDigitsBe at hfold ⊢
    rw [digitsBe, List.foldl_append, hfold, pow_succ', Nat.mod_mul, List.foldl_cons, List.foldl_nil]
    ring

theorem lt_of_mem_digitsBe {b k n d : ℕ} (hb : 0 < b) (h : d ∈ digitsBe b k n) : d < b := by
  induction k generalizing n with
  | zero => simp [digitsBe] at h
  | succ k ih =>
    rcases List.mem_append.1 h with h | h
    · exact ih h
    · exact List.mem_singleton.1 h ▸ Nat.mod_lt _ hb

/-- Numbers as text, with a separator between them. -/
def printGroups (sep : Char) (print : ℕ → List Char) (gs : List ℕ) : List Char :=
  [sep].intercalate (gs.map print)

def parseGroups (sep : Char) (parse : List Char → ℕ) (text : List Char) : List ℕ :=
  (text.splitOn sep).map parse

theorem parseGroups_printGroups {sep : Char} {print : ℕ → List Char} {parse : List Char → ℕ}
    {gs : List ℕ} (hgs : gs ≠ []) (hparse : ∀ g ∈ gs, parse (print g) = g)
    (hsep : ∀ g ∈ gs, sep ∉ print g) : parseGroups sep parse (printGroups sep print gs) = gs := by
  rw [parseGroups, printGroups, List.splitOn_intercalate sep (by simpa using hsep) (by simpa),
    List.map_map]
  exact (List.map_congr_left hparse).trans (List.map_id gs)

/-- A group of an IPv6 address, with its four digits. -/
def hexGroup (g : ℕ) : List Char :=
  (digitsBe 16 4 g).map Nat.digitChar

def hexVal (c : Char) : ℕ :=
  ((List.range 16).find? fun d => Nat.digitChar d = c).getD 0

def ntop4 (a : BitVec 32) : List Char :=
  printGroups '.' (Nat.toDigits 10) (digitsBe 256 4 a.toNat)

/-- The groups of `::` are written out. -/
def ntop6 (a : BitVec 128) : List Char :=
  printGroups ':' hexGroup (digitsBe 65536 8 a.toNat)

/-- Conversion of texts that are canonical. -/
def plainInet : Inet where
  ntop4 := ntop4
  ntop6 := ntop6
  pton4 text :=
    let a := BitVec.ofNat 32 (ofDigitsBe 256 (parseGroups '.' (Nat.ofDigitChars 10 · 0) text))
    if ntop4 a = text then some a else none
  pton6 text :=
    let a := BitVec.ofNat 128 (ofDigitsBe 65536
      (parseGroups ':' (fun g => ofDigitsBe 16 (g.map hexVal)) text))
    if ntop6 a = text then some a else none

theorem digitChar_of_lt {d : ℕ} (hd : d < 16) : hexVal (Nat.digitChar d) = d ∧
    Nat.digitChar d ≠ '.' ∧ Nat.digitChar d ≠ ':' := by
  have hall : ∀ d : Fin 16, hexVal (Nat.digitChar d) = d ∧
      Nat.digitChar d ≠ '.' ∧ Nat.digitChar d ≠ ':' := by decide
  exact hall ⟨d, hd⟩

theorem no_separator_hexGroup {g : ℕ} {c : Char} (h : c ∈ hexGroup g) : c ≠ '.' ∧ c ≠ ':' := by
  obtain ⟨d, hd, rfl⟩ := List.mem_map.1 h
  exact (digitChar_of_lt (lt_of_mem_digitsBe (by decide) hd)).2

theorem no_separator_toDigits {g : ℕ} {c : Char} (h : c ∈ Nat.toDigits 10 g) :
    c ≠ '.' ∧ c ≠ ':' := by
  have hdigit := Nat.isDigit_of_mem_toDigits (by decide) (by decide) h
  constructor
  · rintro rfl
    exact absurd hdigit (by decide)
  · rintro rfl
    exact absurd hdigit (by decide)

theorem parse_hexGroup {g : ℕ} (hg : g < 65536) : ofDigitsBe 16 ((hexGroup g).map hexVal) = g := by
  rw [hexGroup, List.map_map, List.map_congr_left (g := id), List.map_id, ofDigitsBe_digitsBe]
  · exact Nat.mod_eq_of_lt hg
  · exact fun d hd => (digitChar_of_lt (lt_of_mem_digitsBe (by decide) hd)).1

/-- The first group of a text with at least two groups ends at the separator. -/
theorem separatedBy_printGroups {sep : Char} {print : ℕ → List Char} (g g' : ℕ) (gs : List ℕ)
    (hlen : (print g).length < 10) (hprint : ∀ c ∈ print g, c ≠ '.' ∧ c ≠ ':') :
    SeparatedBy sep (printGroups sep print (g :: g' :: gs)) :=
  ⟨print g, printGroups sep print (g' :: gs), rfl, hlen, hprint⟩

theorem plainInet_lawful : plainInet.Lawful where
  pton4_ntop4 a := by
    have hgroups : parseGroups '.' (Nat.ofDigitChars 10 · 0) (ntop4 a) = digitsBe 256 4 a.toNat :=
      parseGroups_printGroups (by simp [digitsBe]) (fun _ _ => Nat.ofDigitChars_ten_toDigits)
        fun _ _ h => (no_separator_toDigits h).1 rfl
    have hmod : a.toNat % 256 ^ 4 = a.toNat := Nat.mod_eq_of_lt a.isLt
    simp only [plainInet, hgroups, ofDigitsBe_digitsBe, hmod]
    rw [BitVec.ofNat_toNat, BitVec.setWidth_eq, if_pos rfl]
  pton6_ntop6 a := by
    have hgroups : parseGroups ':' (fun g => ofDigitsBe 16 (g.map hexVal)) (ntop6 a) =
        digitsBe 65536 8 a.toNat :=
      parseGroups_printGroups (by simp [digitsBe])
        (fun _ hg => parse_hexGroup (lt_of_mem_digitsBe (by decide) hg))
        fun _ _ h => (no_separator_hexGroup h).2 rfl
    have hmod : a.toNat % 65536 ^ 8 = a.toNat := Nat.mod_eq_of_lt a.isLt
    simp only [plainInet, hgroups, ofDigitsBe_digitsBe, hmod]
    rw [BitVec.ofNat_toNat, BitVec.setWidth_eq, if_pos rfl]
  ntop4_dot a := by
    refine separatedBy_printGroups _ _ _ ?_ fun c => no_separator_toDigits
    have hlt : a.toNat / 256 / 256 / 256 % 256 < 10 ^ 3 :=
      (Nat.mod_lt _ (by decide)).trans (by decide)
    exact ((Nat.length_toDigits_le_iff (by decide) (by decide)).2 hlt).trans_lt (by decide)
  ntop6_colon a :=
    separatedBy_printGroups _ _ _ (by simp [hexGroup, digitsBe]) fun c => no_separator_hexGroup

/-- A file with an address twice, an IPv6 address and an invalid token, read into a buffer that was
empty. -/
theorem uniqueTable_plain :
    UniqueTable plainInet
      (parseIpList (fun _ => '\x00') ["127.0.0.1".toList, "127.0.0.1".toList,
        "fe80:1111:2222:3333:4444:5555:6666:7777".toList, "1.2.3".toList])
      (initTable plainInet
        (parseIpList (fun _ => '\x00') ["127.0.0.1".toList, "127.0.0.1".toList,
          "fe80:1111:2222:3333:4444:5555:6666:7777".toList, "1.2.3".toList])) :=
  uniqueTable plainInet plainInet_lawful _ _

end NetProg.Rtt
