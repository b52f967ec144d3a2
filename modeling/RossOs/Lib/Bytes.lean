import Mathlib.Data.List.Basic
import Mathlib.Data.Nat.Bitwise
import Mathlib.Data.UInt
import Mathlib.Tactic.Ring

/-!
# Byte memories

A memory is a function from addresses to bytes. `read` takes a range out of it as a list, `write`
puts a list into it, and the laws say what a read sees after a write (`read_write_self`,
`read_write_of_disjoint`). `leNat` and `toLe` are the little-endian reading and encoding of
numbers, `clear` zeroes a range, and `splice` is the in-place update of a buffer by a shorter list.
-/

namespace ByteMem

/-- A memory: a byte at each address. -/
abbrev Mem := ℕ → UInt8

/-- The `n` bytes from `a` on. -/
def read (m : Mem) (a n : ℕ) : List UInt8 := (List.range n).map fun i => m (a + i)

/-- The memory with `bs` at `a`. -/
def write (m : Mem) (a : ℕ) (bs : List UInt8) : Mem := fun x =>
  if a ≤ x ∧ x < a + bs.length then bs.getD (x - a) 0 else m x

/-! ## Reads -/

/-- A read returns as many bytes as it asks for. -/
@[simp] theorem length_read (m : Mem) (a n : ℕ) : (read m a n).length = n := by simp [read]

/-- A read of no bytes is empty. -/
@[simp] theorem read_zero (m : Mem) (a : ℕ) : read m a 0 = [] := rfl

/-- The bytes of a read, by index. -/
theorem getElem?_read (m : Mem) (a : ℕ) {n i : ℕ} (hi : i < n) :
    (read m a n)[i]? = some (m (a + i)) := by
  rw [read, List.getElem?_map, List.getElem?_range hi]; rfl

/-- The bytes of a read, by index, with a default that is never used. -/
theorem getD_read (m : Mem) (a : ℕ) {n i : ℕ} (hi : i < n) (d : UInt8) :
    (read m a n).getD i d = m (a + i) := by
  rw [List.getD_eq_getElem?_getD, getElem?_read m a hi]; rfl

/-- A read sees only the bytes of its range. -/
theorem read_congr {m m' : Mem} {a n : ℕ} (h : ∀ i < n, m (a + i) = m' (a + i)) :
    read m a n = read m' a n :=
  List.map_congr_left fun i hi => h i (List.mem_range.1 hi)

/-- A read splits at every point of its range. -/
theorem read_add (m : Mem) (a n k : ℕ) : read m a (n + k) = read m a n ++ read m (a + n) k := by
  simp only [read, List.range_add, List.map_append, List.map_map]
  congr 1
  exact List.map_congr_left fun i _ => by simp [Nat.add_assoc]

/-- The first bytes of a read are a shorter read. -/
theorem take_read (m : Mem) (a : ℕ) {n k : ℕ} (h : k ≤ n) : (read m a n).take k = read m a k := by
  obtain ⟨j, rfl⟩ := Nat.exists_eq_add_of_le h
  rw [read_add, List.take_left' (by simp)]

/-- The bytes of a read from the `k`-th on are a read further up. -/
theorem drop_read (m : Mem) (a : ℕ) {n k : ℕ} (h : k ≤ n) :
    (read m a n).drop k = read m (a + k) (n - k) := by
  obtain ⟨j, rfl⟩ := Nat.exists_eq_add_of_le h
  rw [read_add, List.drop_left' (by simp), Nat.add_sub_cancel_left]

/-! ## Writes -/

/-- Inside the range written, memory holds the bytes written. -/
theorem write_apply_of_lt {m : Mem} {a x : ℕ} {bs : List UInt8} (h1 : a ≤ x)
    (h2 : x < a + bs.length) : write m a bs x = bs.getD (x - a) 0 := by
  rw [write, if_pos ⟨h1, h2⟩]

/-- Outside the range written, memory is as it was. -/
theorem write_apply_of_outside {m : Mem} {a x : ℕ} {bs : List UInt8}
    (h : x < a ∨ a + bs.length ≤ x) : write m a bs x = m x := by
  rw [write, if_neg (by omega)]

/-- Writing no bytes changes nothing. -/
@[simp] theorem write_nil (m : Mem) (a : ℕ) : write m a [] = m := by
  funext x
  exact write_apply_of_outside (by simp; omega)

/-- A read of the range just written returns what was written. -/
theorem read_write_self (m : Mem) (a : ℕ) (bs : List UInt8) :
    read (write m a bs) a bs.length = bs := by
  refine List.ext_getElem? fun i => ?_
  rcases Nat.lt_or_ge i bs.length with hi | hi
  · rw [getElem?_read _ _ hi, write_apply_of_lt (by omega) (by omega), Nat.add_sub_cancel_left,
      List.getD_eq_getElem?_getD, List.getElem?_eq_getElem hi]
    rfl
  · rw [List.getElem?_eq_none (by simpa using hi), List.getElem?_eq_none hi]

/-- A read apart from the range written returns what was there before. -/
theorem read_write_of_disjoint (m : Mem) {a b n : ℕ} {bs : List UInt8}
    (h : a + n ≤ b ∨ b + bs.length ≤ a) : read (write m b bs) a n = read m a n :=
  read_congr fun _ _ => write_apply_of_outside (by omega)

/-- Two adjacent writes are one. -/
theorem write_write_append (m : Mem) (a : ℕ) (bs cs : List UInt8) :
    write (write m a bs) (a + bs.length) cs = write m a (bs ++ cs) := by
  funext x
  simp only [write, List.length_append]
  by_cases h1 : a + bs.length ≤ x ∧ x < a + bs.length + cs.length
  · rw [if_pos h1, if_pos (by omega), List.getD_append_right _ _ _ _ (by omega)]
    congr 1
    omega
  · rw [if_neg h1]
    by_cases h2 : a ≤ x ∧ x < a + bs.length
    · rw [if_pos h2, if_pos (by omega), List.getD_append _ _ _ _ (by omega)]
    · rw [if_neg h2, if_neg (by omega)]

/-! ## Little-endian numbers -/

/-- The number whose little-endian bytes are `bs`. -/
def leNat : List UInt8 → ℕ
  | [] => 0
  | b :: bs => b.toNat + 256 * leNat bs

/-- The `n` little-endian bytes of a number, which is cut off at `256 ^ n`. -/
def toLe : ℕ → ℕ → List UInt8
  | 0, _ => []
  | n + 1, v => UInt8.ofNat v :: toLe n (v / 256)

/-- A value encoded on `n` bytes is `n` bytes long. -/
@[simp] theorem length_toLe : ∀ n v : ℕ, (toLe n v).length = n
  | 0, _ => rfl
  | n + 1, v => by rw [toLe, List.length_cons, length_toLe n]

/-- What `n` bytes encode is below `256 ^ n`. -/
theorem leNat_lt : ∀ bs : List UInt8, leNat bs < 256 ^ bs.length
  | [] => Nat.one_pos
  | b :: bs => by
    have hb : b.toNat < 256 := b.toNat_lt
    have ih := leNat_lt bs
    rw [leNat, List.length_cons, Nat.pow_succ]
    omega

/-- Decoding an encoded value gives it back modulo `256 ^ n`. -/
theorem leNat_toLe : ∀ n v : ℕ, leNat (toLe n v) = v % 256 ^ n
  | 0, v => by rw [toLe, leNat, Nat.pow_zero, Nat.mod_one]
  | n + 1, v => by
    have hb : (UInt8.ofNat v).toNat = v % 256 := UInt8.toNat_ofNat'
    rw [toLe, leNat, leNat_toLe n, hb, Nat.pow_succ, Nat.mul_comm (256 ^ n), Nat.mod_mul]

/-- A value that fits its bytes is decoded exactly. -/
theorem leNat_toLe_of_lt {n v : ℕ} (h : v < 256 ^ n) : leNat (toLe n v) = v := by
  rw [leNat_toLe, Nat.mod_eq_of_lt h]

/-- A number is its low bytes and, further up, its high bytes. -/
theorem leNat_append (bs cs : List UInt8) :
    leNat (bs ++ cs) = leNat bs + 256 ^ bs.length * leNat cs := by
  induction bs with
  | nil => simp [leNat]
  | cons b bs ih =>
    rw [List.cons_append, leNat, leNat, ih, List.length_cons, Nat.pow_succ]
    ring

/-- Zero bytes encode zero. -/
@[simp] theorem leNat_replicate_zero (n : ℕ) : leNat (List.replicate n 0) = 0 := by
  induction n with
  | zero => rfl
  | succ n ih => rw [List.replicate_succ, leNat, ih]; rfl

/-! ## Arrays of 64-bit words -/

/-- Word `i` of the array of 64-bit words at `t`. -/
def word (m : Mem) (t i : ℕ) : ℕ := leNat (read m (t + 8 * i) 8)

/-- The memory with word `i` of the array at `t` set to `v`. -/
def setWord (m : Mem) (t i v : ℕ) : Mem := write m (t + 8 * i) (toLe 8 v)

/-- A word of a table is below `2 ^ 64`. -/
theorem word_lt (m : Mem) (t i : ℕ) : word m t i < 2 ^ 64 := by
  have := leNat_lt (read m (t + 8 * i) 8)
  rw [length_read] at this
  exact this

/-- A word depends on its own eight bytes only. -/
theorem word_congr {m m' : Mem} {t i : ℕ} (h : ∀ k < 8, m (t + 8 * i + k) = m' (t + 8 * i + k)) :
    word m t i = word m' t i := by
  rw [word, word, read_congr h]

/-- The word just set reads back. -/
theorem word_setWord_self (m : Mem) (t i : ℕ) {v : ℕ} (hv : v < 2 ^ 64) :
    word (setWord m t i v) t i = v := by
  have := read_write_self m (t + 8 * i) (toLe 8 v)
  rw [length_toLe] at this
  rw [word, setWord, this, leNat_toLe_of_lt hv]

/-- Setting a word changes no other word of the array. -/
theorem word_setWord_of_ne (m : Mem) (t v : ℕ) {i j : ℕ} (h : i ≠ j) :
    word (setWord m t i v) t j = word m t j := by
  rw [word, word, setWord, read_write_of_disjoint]
  rw [length_toLe]
  omega

/-- Setting a word leaves every byte outside it as it was. -/
theorem setWord_apply_of_outside {m : Mem} {t i v x : ℕ} (h : x < t + 8 * i ∨ t + 8 * i + 8 ≤ x) :
    setWord m t i v x = m x :=
  write_apply_of_outside (by rw [length_toLe]; exact h)

/-- Filling an array of words from the front. -/
theorem word_foldl_setWord (m : Mem) (t : ℕ) {g : ℕ → ℕ} (n : ℕ) (hg : ∀ i < n, g i < 2 ^ 64)
    (j : ℕ) : word ((List.range n).foldl (fun m i => setWord m t i (g i)) m) t j =
      if j < n then g j else word m t j := by
  induction n with
  | zero => rw [if_neg (Nat.not_lt_zero j)]; rfl
  | succ n ih =>
    rw [List.range_succ, List.foldl_append, List.foldl_cons, List.foldl_nil]
    rcases Nat.lt_trichotomy j n with h | rfl | h
    · rw [word_setWord_of_ne _ _ _ (by omega), ih fun i hi => hg i (by omega), if_pos h,
        if_pos (by omega)]
    · rw [word_setWord_self _ _ _ (hg j (by omega)), if_pos (by omega)]
    · rw [word_setWord_of_ne _ _ _ (by omega), ih fun i hi => hg i (by omega), if_neg (by omega),
        if_neg (by omega)]

/-! ## Zeroed ranges -/

/-- The memory with the `n` bytes from `a` on set to zero. -/
@[irreducible] def clear (m : Mem) (a n : ℕ) : Mem := write m a (List.replicate n 0)

/-- Inside the cleared range every byte is zero. -/
theorem clear_apply_of_lt {m : Mem} {a n x : ℕ} (h1 : a ≤ x) (h2 : x < a + n) :
    clear m a n x = 0 := by
  have hlen : x < a + (List.replicate n (0 : UInt8)).length := by rwa [List.length_replicate]
  rw [clear, write_apply_of_lt h1 hlen, List.getD_eq_getElem?_getD, List.getElem?_replicate,
    if_pos (by omega)]
  rfl

/-- Outside the cleared range memory is as it was. -/
theorem clear_apply_of_outside {m : Mem} {a n x : ℕ} (h : x < a ∨ a + n ≤ x) :
    clear m a n x = m x := by
  rw [clear, write_apply_of_outside (by rwa [List.length_replicate])]

/-- A read inside a zeroed range returns zeros. -/
theorem read_clear (m : Mem) {a n b k : ℕ} (h1 : a ≤ b) (h2 : b + k ≤ a + n) :
    read (clear m a n) b k = List.replicate k 0 := by
  refine List.ext_getElem? fun i => ?_
  rcases Nat.lt_or_ge i k with hi | hi
  · rw [getElem?_read _ _ hi, clear_apply_of_lt (by omega) (by omega), List.getElem?_replicate,
      if_pos hi]
  · rw [List.getElem?_eq_none (by simpa using hi), List.getElem?_eq_none (by simpa using hi)]

/-- The words of a zeroed range are zero. -/
theorem word_clear (m : Mem) (t : ℕ) {n i : ℕ} (h : 8 * i + 8 ≤ n) :
    word (clear m t n) t i = 0 := by
  rw [word, read_clear m (by omega) (by omega), leNat_replicate_zero]

/-! ## Parts of a buffer -/

/-- The `n` bytes of a buffer from `o` on. -/
def slice (buf : List UInt8) (o n : ℕ) : List UInt8 := (buf.drop o).take n

/-- The little-endian number of `n` bytes at `o`. -/
def field (buf : List UInt8) (o n : ℕ) : ℕ := leNat (slice buf o n)

/-- A slice inside the buffer has the length asked for. -/
theorem length_slice {buf : List UInt8} {o n : ℕ} (h : o + n ≤ buf.length) :
    (slice buf o n).length = n := by
  rw [slice, List.length_take, List.length_drop]
  omega

/-- The bytes of a slice are those of the buffer from its offset on. -/
theorem getD_slice (buf : List UInt8) {o n i : ℕ} (hi : i < n) :
    (slice buf o n).getD i 0 = buf.getD (o + i) 0 := by
  simp only [slice, List.getD_eq_getElem?_getD, List.getElem?_take_of_lt hi, List.getElem?_drop]

/-- A field of `n` bytes is below `256 ^ n`. -/
theorem field_lt (buf : List UInt8) (o n : ℕ) : field buf o n < 256 ^ n :=
  Nat.lt_of_lt_of_le (leNat_lt _) (Nat.pow_le_pow_right (by decide) (List.length_take_le _ _))

/-- A part of a read is a read. -/
theorem slice_read (m : Mem) (a : ℕ) {n o k : ℕ} (h : o + k ≤ n) :
    slice (read m a n) o k = read m (a + o) k := by
  rw [slice, drop_read m a (by omega), take_read m _ (by omega)]

/-- Buffers that agree on a range agree on its bytes. -/
theorem slice_congr {buf buf' : List UInt8} {o n : ℕ} (hlen : buf.length = buf'.length)
    (h : ∀ i < n, buf.getD (o + i) 0 = buf'.getD (o + i) 0) : slice buf o n = slice buf' o n := by
  refine List.ext_getElem? fun i => ?_
  rcases Nat.lt_or_ge i n with hi | hi
  · simp only [slice, List.getElem?_take_of_lt hi, List.getElem?_drop]
    have hbyte := h i hi
    rcases Nat.lt_or_ge (o + i) buf.length with hb | hb
    · rw [List.getD_eq_getElem?_getD, List.getD_eq_getElem?_getD, List.getElem?_eq_getElem hb,
        List.getElem?_eq_getElem (hlen ▸ hb)] at hbyte
      rw [List.getElem?_eq_getElem hb, List.getElem?_eq_getElem (hlen ▸ hb)]
      exact congrArg some hbyte
    · rw [List.getElem?_eq_none hb, List.getElem?_eq_none (hlen ▸ hb)]
  · rw [List.getElem?_eq_none, List.getElem?_eq_none]
    · exact (List.length_take_le _ _).trans hi
    · exact (List.length_take_le _ _).trans hi

/-- The buffer `buf` with `src` copied over it from position `o` on. -/
def splice (buf : List UInt8) (o : ℕ) (src : List UInt8) : List UInt8 :=
  buf.take o ++ src ++ buf.drop (o + src.length)

/-- Bytes put inside a buffer leave its length. -/
theorem length_splice {buf src : List UInt8} {o : ℕ} (h : o + src.length ≤ buf.length) :
    (splice buf o src).length = buf.length := by
  simp only [splice, List.length_append, List.length_take, List.length_drop]
  omega

/-- A byte of a spliced buffer comes from the source inside its range, and from the buffer
outside. -/
theorem getD_splice {buf src : List UInt8} {o : ℕ} (h : o + src.length ≤ buf.length) (i : ℕ)
    (d : UInt8) : (splice buf o src).getD i d =
      if o ≤ i ∧ i < o + src.length then src.getD (i - o) d else buf.getD i d := by
  have htake : (buf.take o).length = o := by rw [List.length_take]; omega
  simp only [splice, List.append_assoc]
  rcases Nat.lt_or_ge i o with h1 | h1
  · rw [List.getD_append _ _ _ _ (by omega), if_neg (by omega)]
    simp only [List.getD_eq_getElem?_getD, List.getElem?_take_of_lt h1]
  · rw [List.getD_append_right _ _ _ _ (by omega), htake]
    rcases Nat.lt_or_ge i (o + src.length) with h2 | h2
    · rw [List.getD_append _ _ _ _ (by omega), if_pos ⟨h1, h2⟩]
    · rw [List.getD_append_right _ _ _ _ (by omega), if_neg (by omega)]
      simp only [List.getD_eq_getElem?_getD, List.getElem?_drop]
      congr 2
      omega

/-- Putting no bytes changes nothing. -/
@[simp] theorem splice_nil (buf : List UInt8) (o : ℕ) : splice buf o [] = buf := by
  simp [splice]

/-- A splice of a whole buffer. -/
theorem splice_all {buf src : List UInt8} (h : src.length = buf.length) :
    splice buf 0 src = src := by
  rw [splice, List.take_zero, List.nil_append, Nat.zero_add, h, List.drop_length, List.append_nil]

/-- A splice into the end of a buffer. -/
theorem take_append_splice_drop (buf src : List UInt8) (o : ℕ) :
    buf.take o ++ splice (buf.drop o) 0 src = splice buf o src := by
  simp [splice, List.drop_drop]

/-- Two splices side by side are one. -/
theorem splice_splice_append (buf : List UInt8) (o : ℕ) (xs ys : List UInt8)
    (h : o + xs.length + ys.length ≤ buf.length) :
    splice (splice buf o xs) (o + xs.length) ys = splice buf o (xs ++ ys) := by
  have hlen : (buf.take o ++ xs).length = o + xs.length := by
    rw [List.length_append, List.length_take]
    omega
  simp only [splice]
  rw [List.take_left' hlen, List.drop_append, hlen, List.drop_eq_nil_of_le (by omega),
    List.nil_append, List.drop_drop, List.length_append]
  simp [List.append_assoc, Nat.add_assoc]

/-- Buffers of one length are equal when their bytes are. -/
theorem ext_getD {buf buf' : List UInt8} (hlen : buf.length = buf'.length)
    (h : ∀ i < buf.length, buf.getD i 0 = buf'.getD i 0) : buf = buf' := by
  refine List.ext_getElem hlen fun i hi hi' => ?_
  have hbyte := h i hi
  rwa [List.getD_eq_getElem _ _ hi, List.getD_eq_getElem _ _ hi'] at hbyte

/-- A slice of a slice is a slice of the buffer. -/
theorem slice_slice (buf : List UInt8) {o n o' n' : ℕ} (h : o' + n' ≤ n) :
    slice (slice buf o n) o' n' = slice buf (o + o') n' := by
  rw [slice, slice, slice, List.drop_take, List.take_take, List.drop_drop, min_eq_left (by omega)]

/-- A slice that ends inside the first part does not see the second. -/
theorem slice_append_left {bs cs : List UInt8} {o n : ℕ} (h : o + n ≤ bs.length) :
    slice (bs ++ cs) o n = slice bs o n := by
  rw [slice, List.drop_append_of_le_length (by omega), List.take_append_of_le_length, slice]
  rw [List.length_drop]
  omega

/-- A slice that starts behind the first part is a slice of the second. -/
theorem slice_append_right {bs cs : List UInt8} {k : ℕ} (h : bs.length = k) (o n : ℕ) :
    slice (bs ++ cs) (k + o) n = slice cs o n := by
  rw [slice, ← List.drop_drop, ← h, List.drop_left, slice]

/-- A part of a spliced buffer away from the source. -/
theorem slice_splice_of_disjoint {buf src : List UInt8} {a o n : ℕ}
    (ha : a + src.length ≤ buf.length) (h : o + n ≤ a ∨ a + src.length ≤ o) :
    slice (splice buf a src) o n = slice buf o n :=
  slice_congr (length_splice ha) fun i hi => by rw [getD_splice ha, if_neg (by omega)]

/-- A part of a spliced buffer around the source. -/
theorem slice_splice_inside (buf src : List UInt8) {a o n : ℕ} (ha : a + src.length ≤ n)
    (hn : o + n ≤ buf.length) :
    slice (splice buf (o + a) src) o n = splice (slice buf o n) a src := by
  have hbuf : o + a + src.length ≤ buf.length := by omega
  have hpart : a + src.length ≤ (slice buf o n).length := by rwa [length_slice hn]
  have hlen : (slice (splice buf (o + a) src) o n).length = n :=
    length_slice (by rwa [length_splice hbuf])
  refine ext_getD (by rw [hlen, length_splice hpart, length_slice hn]) fun i hi => ?_
  rw [hlen] at hi
  rw [getD_slice _ hi, getD_splice hbuf, getD_splice hpart]
  by_cases hin : a ≤ i ∧ i < a + src.length
  · rw [if_pos (by omega), if_pos hin, show o + i - (o + a) = i - a by omega]
  · rw [if_neg (by omega), if_neg hin, getD_slice _ hi]

/-- The bytes just put into a buffer read back. -/
theorem slice_splice_self (buf src : List UInt8) (a : ℕ) (ha : a + src.length ≤ buf.length) :
    slice (splice buf a src) a src.length = src := by
  have h := slice_splice_inside buf src (show 0 + src.length ≤ src.length by omega) ha
  rw [Nat.add_zero] at h
  rw [h, splice_all (length_slice ha).symm]

/-- Writing a spliced copy of a range back is writing the source alone. -/
theorem write_splice_read (m : Mem) (a o n : ℕ) (src : List UInt8)
    (h : o + src.length ≤ n) :
    write m a (splice (read m a n) o src) = write m (a + o) src := by
  have hlen : (splice (read m a n) o src).length = n := by
    rw [length_splice (by simpa using h), length_read]
  funext x
  by_cases h1 : a ≤ x ∧ x < a + n
  · rw [write_apply_of_lt h1.1 (by omega), getD_splice (by simpa using h)]
    by_cases h2 : o ≤ x - a ∧ x - a < o + src.length
    · rw [if_pos h2, write_apply_of_lt (by omega) (by omega)]
      congr 1
      omega
    · rw [if_neg h2, getD_read _ _ (by omega), write_apply_of_outside (by omega)]
      congr 1
      omega
  · rw [write_apply_of_outside (by omega), write_apply_of_outside (by omega)]

/-! ## Overlays -/

/-- The bytes `bs'` are `bs`, with zeros behind them, and `data` put over that from `pos` on. -/
def Overlaid (bs : List UInt8) (pos : ℕ) (data bs' : List UInt8) : Prop :=
  ∀ i, bs'.getD i 0 = if pos ≤ i ∧ i < pos + data.length then data.getD (i - pos) 0 else bs.getD i 0

section
variable {bs bs₁ bs₂ xs ys : List UInt8} {pos : ℕ}

/-- Overlaying nothing leaves every byte, read with zero as the default. -/
theorem Overlaid.nil_iff : Overlaid bs pos [] bs₁ ↔ ∀ i, bs₁.getD i 0 = bs.getD i 0 := by
  refine forall_congr' fun i => ?_
  rw [if_neg (by rw [List.length_nil]; omega)]

/-- Contents are themselves with nothing laid over. -/
theorem Overlaid.refl (bs : List UInt8) (pos : ℕ) : Overlaid bs pos [] bs :=
  Overlaid.nil_iff.2 fun _ => rfl

/-- An overlay after the bytes were continued with zeros. -/
theorem Overlaid.of_zeros (h : Overlaid bs pos [] bs₁) (h' : Overlaid bs₁ pos xs bs₂) :
    Overlaid bs pos xs bs₂ := by
  intro i
  rw [h' i, Overlaid.nil_iff.1 h i]

/-- Growth by zero bytes after an overlay leaves the overlay. -/
theorem Overlaid.then_zeros (h : Overlaid bs pos xs bs₁) (h' : Overlaid bs₁ pos [] bs₂) :
    Overlaid bs pos xs bs₂ := by
  intro i
  rw [Overlaid.nil_iff.1 h' i, h i]

/-- Two overlays side by side are one. -/
theorem Overlaid.append (h : Overlaid bs pos xs bs₁) (h' : Overlaid bs₁ (pos + xs.length) ys bs₂) :
    Overlaid bs pos (xs ++ ys) bs₂ := by
  intro i
  rw [h' i, h i, List.length_append]
  by_cases h1 : pos + xs.length ≤ i ∧ i < pos + xs.length + ys.length
  · rw [if_pos h1, if_pos (by omega), List.getD_append_right _ _ _ _ (by omega)]
    congr 1
    omega
  · rw [if_neg h1]
    by_cases h2 : pos ≤ i ∧ i < pos + xs.length
    · rw [if_pos h2, if_pos (by omega), List.getD_append _ _ _ _ (by omega)]
    · rw [if_neg h2, if_neg (by omega)]

end

end ByteMem
