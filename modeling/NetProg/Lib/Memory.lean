import Mathlib.Tactic

/-!
# A struct as bytes

The memory of a struct is a byte for each offset. `write` copies bytes to an offset, `bytes`
reads them, and `int32` is the little-endian `int` at an offset. `fill` is what `read` does
with the next bytes of a stream : it fills the memory from the front and keeps the rest.
-/

namespace NetProg.Lib

/-- The bytes of a struct. -/
abbrev Memory :=
  ℕ → UInt8

namespace Memory

/-- Copy bytes to offset `i`. -/
def write (m : Memory) (i : ℕ) (bs : List UInt8) : Memory :=
  fun j => if i ≤ j ∧ j < i + bs.length then bs.getD (j - i) 0 else m j

/-- The `n` bytes at offset `i`. -/
def bytes (m : Memory) (i n : ℕ) : List UInt8 :=
  (List.range n).map fun j => m (i + j)

/-- The `int` at offset `i`. -/
def int32 (m : Memory) (i : ℕ) : ℤ :=
  let n := (m i).toNat + 256 * (m (i + 1)).toNat + 65536 * (m (i + 2)).toNat +
    16777216 * (m (i + 3)).toNat
  if n < 2147483648 then n else n - 4294967296

/-- The bytes of an `int` that is not negative. -/
def int32Bytes (n : ℕ) : List UInt8 :=
  [.ofNat n, .ofNat (n / 256), .ofNat (n / 65536), .ofNat (n / 16777216)]

/-- Fill the first `n` bytes from a stream at `pos`. -/
def fill (m : Memory) (stream : ℕ → UInt8) (pos n : ℕ) : Memory :=
  fun j => if j < n then stream (pos + j) else m j

variable {m m' : Memory} {i j n : ℕ} {bs : List UInt8}

theorem write_of_outside (h : j < i ∨ i + bs.length ≤ j) : m.write i bs j = m j :=
  if_neg (by omega)

theorem write_add (h : j < bs.length) : m.write i bs (i + j) = bs[j] := by
  rw [write, if_pos (by omega), Nat.add_sub_cancel_left, List.getD_eq_getElem?_getD,
    List.getElem?_eq_getElem h, Option.getD_some]

theorem bytes_congr (h : ∀ k < n, m (i + k) = m' (i + k)) : m.bytes i n = m'.bytes i n :=
  List.map_congr_left fun k hk => h k (List.mem_range.1 hk)

@[simp]
theorem length_bytes : (m.bytes i n).length = n := by
  simp [bytes]

theorem bytes_eq_iff : m.bytes i bs.length = bs ↔ ∀ k (h : k < bs.length), m (i + k) = bs[k] := by
  constructor
  · intro h k hk
    have hget := List.getElem_of_eq h (by simpa using hk)
    simpa [bytes] using hget
  · intro h
    exact List.ext_getElem length_bytes fun k hk hk' => by simpa [bytes] using h k hk'

theorem bytes_add (m : Memory) (i n k : ℕ) :
    m.bytes i (n + k) = m.bytes i n ++ m.bytes (i + n) k := by
  simp only [bytes, List.range_add, List.map_append, List.map_map]
  simp [Function.comp_def, Nat.add_assoc]

theorem int32_congr (h : ∀ k < 4, m (i + k) = m' (i + k)) : m.int32 i = m'.int32 i := by
  have h0 := h 0 (by decide)
  simp only [int32, h 1 (by decide), h 2 (by decide), h 3 (by decide), Nat.add_zero] at h0 ⊢
  rw [h0]

theorem int32_eq (hn : n < 2147483648)
    (h : ∀ k (hk : k < (int32Bytes n).length), m (i + k) = (int32Bytes n)[k]) : m.int32 i = n := by
  have hlen : (int32Bytes n).length = 4 := rfl
  have h0 : m (i + 0) = .ofNat n := h 0 (by omega)
  have h1 : m (i + 1) = .ofNat (n / 256) := h 1 (by omega)
  have h2 : m (i + 2) = .ofNat (n / 65536) := h 2 (by omega)
  have h3 : m (i + 3) = .ofNat (n / 16777216) := h 3 (by omega)
  rw [Nat.add_zero] at h0
  simp only [int32, h0, h1, h2, h3, UInt8.toNat_ofNat']
  omega

theorem int32_write (hn : n < 2147483648) : (m.write i (int32Bytes n)).int32 i = n :=
  int32_eq hn fun _ hk => write_add hk

/-- The low byte of an `int`. -/
theorem int32_emod : m.int32 i % 256 = (m i).toNat := by
  have h0 := (m i).toNat_lt
  simp only [int32]
  omega

theorem int32_neg (h : m (i + 3) = 255) : m.int32 i < 0 := by
  have h0 := (m i).toNat_lt
  have h1 := (m (i + 1)).toNat_lt
  have h2 := (m (i + 2)).toNat_lt
  simp only [int32, h]
  have : (255 : UInt8).toNat = 255 := rfl
  omega

theorem fill_of_lt {stream : ℕ → UInt8} {pos : ℕ} (h : j < n) :
    m.fill stream pos n j = stream (pos + j) :=
  if_pos h

theorem fill_of_le {stream : ℕ → UInt8} {pos : ℕ} (h : n ≤ j) : m.fill stream pos n j = m j :=
  if_neg h.not_gt

end Memory

end NetProg.Lib
