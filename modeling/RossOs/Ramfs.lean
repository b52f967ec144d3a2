import RossOs.Fat.Names
import RossOs.Paths

/-!
# The initial ram disk

`TarFileSystem::new` in `ross-kernel/src/ramfs.rs`: the members of a ustar archive as one flat list
of files. `Member` is a member as the format has it. `newFrom_archive` says that the parser finds
every member with its name field and its contents, and `reached_iff` which of them `open` then finds
under their paths: the list is flat and `open` goes component by component.
-/

namespace RossOs

open ByteMem Fat

/-! ## The parser -/

/-- `str::from_utf8`. -/
def fromUtf8 (bs : List UInt8) : Option (List Char) :=
  (String.fromUTF8? bs.toByteArray).map String.toList

/-- `'\0'`. -/
def nul : Char := Char.ofNat 0

/-- `trim_matches('\0')`. -/
def trimNuls (cs : List Char) : List Char := (cs.dropWhile (· = nul)).rdropWhile (· = nul)

/-- `char::is_whitespace`: the property `White_Space`. -/
def isWhiteSpace (c : Char) : Bool :=
  let n := c.toNat
  9 ≤ n ∧ n ≤ 13 ∨ n = 0x20 ∨ n = 0x85 ∨ n = 0xA0 ∨ n = 0x1680 ∨ 0x2000 ≤ n ∧ n ≤ 0x200A ∨
    n = 0x2028 ∨ n = 0x2029 ∨ n = 0x202F ∨ n = 0x205F ∨ n = 0x3000

/-- `str::trim`. -/
def trimWhiteSpace (cs : List Char) : List Char :=
  (cs.dropWhile isWhiteSpace).rdropWhile isWhiteSpace

/-- The value of a digit to the base 8. -/
def octalDigit (c : Char) : Option ℕ :=
  if 0x30 ≤ c.toNat ∧ c.toNat ≤ 0x37 then some (c.toNat - 0x30) else none

/-- `usize::from_str_radix(s, 8)`. The twelve digits of a size stay below `2 ^ 64`. -/
def fromStrRadix8 (cs : List Char) : Option ℕ :=
  let digits := if cs.head? = some '+' then cs.tail else cs
  if digits = [] then none
  else digits.foldlM (fun n c => (octalDigit c).map (8 * n + ·)) 0

/-- A leading `./` is cut off. -/
def stripDot {α : Type} [BEq α] (dot slash : α) (s : List α) : List α :=
  if [dot, slash].isPrefixOf s then s.drop 2 else s

/-- The name in a header. -/
def headerName (header : List UInt8) : List Char :=
  stripDot '.' '/' (trimNuls ((fromUtf8 (slice header 0 100)).getD []))

/-- The size in a header. -/
def headerSize (header : List UInt8) : ℕ :=
  (fromStrRadix8 (trimWhiteSpace (trimNuls ((fromUtf8 (slice header 124 12)).getD ['0'])))).getD 0

/-- `b"ustar"`. -/
def ustar : List UInt8 := [0x75, 0x73, 0x74, 0x61, 0x72]

/-- The loop of `TarFileSystem::new`, on the bytes from `offset` on. A member that the data does not
hold whole makes the slice panic. -/
def TarFileSystem.newFrom (data : List UInt8) : Option (List TarFile) :=
  if 512 ≤ data.length then
    if slice data 257 5 ≠ ustar then some []
    else
      let name := headerName data
      let size := headerSize data
      let rest := data.drop (512 + (size + 511) / 512 * 512)
      if name = [] ∨ name = ['.'] then newFrom rest
      else if 512 + size ≤ data.length then
        (newFrom rest).map (⟨String.ofList name, slice data 512 size⟩ :: ·)
      else none
  else some []
termination_by data.length
decreasing_by all_goals (rw [List.length_drop]; omega)

/-- `TarFileSystem::new`. -/
def TarFileSystem.new (data : List UInt8) : Option (List TarFile) := newFrom data

/-! ## Archives -/

/-- A number of a header: octal digits after spaces, with spaces and zero bytes after them. -/
def OctalField (bs : List UInt8) (n : ℕ) : Prop :=
  ∃ (a b c : ℕ) (digits : List ℕ), digits ≠ [] ∧ (∀ k ∈ digits, k < 8) ∧
    bs = List.replicate a 0x20 ++ digits.map (fun k => UInt8.ofNat (0x30 + k)) ++
      List.replicate b 0x20 ++ List.replicate c 0 ∧
    n = digits.foldl (fun n k => 8 * n + k) 0

/-- A member of a ustar archive: its header, and the fields of it that name it and give its size.
`parent` is the field `prefix`. -/
structure Member where
  header : List UInt8
  name : List UInt8
  parent : List UInt8
  data : List UInt8
  length_header : header.length = 512
  magic : slice header 257 6 = ustar ++ [0]
  name_field : slice header 0 100 = name ++ List.replicate (100 - name.length) 0
  name_nul : 0 ∉ name
  parent_field : slice header 345 155 = parent ++ List.replicate (155 - parent.length) 0
  parent_nul : 0 ∉ parent
  size_field : OctalField (slice header 124 12) data.length

/-- The path of a member, without a leading `./`. -/
def Member.path (m : Member) : List UInt8 :=
  stripDot 0x2E 0x2F (if m.parent = [] then m.name else m.parent ++ 0x2F :: m.name)

/-- The blocks of a member. -/
def Member.bytes (m : Member) : List UInt8 :=
  m.header ++ (m.data ++ List.replicate ((512 - m.data.length % 512) % 512) 0)

/-- An archive: its members and what comes after them. -/
def archive (ms : List Member) (tail : List UInt8) : List UInt8 := ms.flatMap Member.bytes ++ tail

/-- The end of an archive: a block of zeros, or nothing. -/
def EndOfArchive (tail : List UInt8) : Prop := ∀ b ∈ tail.take 512, b = 0

/-! ## Strings -/

/-- A text is decoded from its bytes only. -/
theorem fromUtf8_eq_some {bs : List UInt8} {cs : List Char} :
    fromUtf8 bs = some cs ↔ utf8 cs = bs := by
  constructor
  · intro h
    obtain ⟨s, hs, rfl⟩ := Option.map_eq_some_iff.1 h
    rw [String.fromUTF8?] at hs
    split at hs
    case isTrue hv =>
      cases hs
      exact List.toByteArray_inj.1 String.utf8Encode_toList
    case isFalse => cases hs
  · rintro rfl
    have hv : (utf8 cs).toByteArray.IsValidUTF8 := ByteArray.isValidUTF8_utf8Encode (l := cs)
    rw [fromUtf8, String.fromUTF8?, dif_pos hv, Option.map_some]
    exact congrArg some String.toList_ofList

/-- The bytes of two texts are those of the one and the other. -/
theorem utf8_append (cs ds : List Char) : utf8 (cs ++ ds) = utf8 cs ++ utf8 ds :=
  List.flatMap_append

/-- NULs are zero bytes. -/
theorem utf8_nuls (k : ℕ) : utf8 (List.replicate k nul) = List.replicate k 0 := by
  induction k with
  | zero => rfl
  | succ k ih => rw [List.replicate_succ, utf8_cons, ih, List.replicate_succ]; rfl

/-- Zero bytes at the end are characters of their own. -/
theorem exists_of_utf8_eq_append {cs : List Char} {bs : List UInt8} {k : ℕ}
    (h : utf8 cs = bs ++ List.replicate k 0) :
    ∃ cs', cs = cs' ++ List.replicate k nul ∧ utf8 cs' = bs := by
  induction k generalizing cs with
  | zero => exact ⟨cs, (List.append_nil cs).symm, by rw [h, List.replicate_zero, List.append_nil]⟩
  | succ k ih =>
    rw [List.replicate_succ', ← List.append_assoc] at h
    have hlast : cs.getLast? = some nul :=
      (getLast?_utf8 (b := 0) (by decide)).1 (by rw [h, List.getLast?_concat])
    obtain ⟨cs₁, rfl⟩ := List.getLast?_eq_some_iff.1 hlast
    rw [utf8_concat] at h
    obtain ⟨cs', rfl, hcs'⟩ := ih (List.append_cancel_right h)
    exact ⟨cs', by rw [List.replicate_succ', List.append_assoc], hcs'⟩

/-- Padding with zeros adds NULs to the text. -/
theorem fromUtf8_append_nuls (bs : List UInt8) (k : ℕ) :
    fromUtf8 (bs ++ List.replicate k 0) =
      (fromUtf8 bs).map (· ++ List.replicate k nul) := by
  refine Option.ext fun cs => ?_
  rw [fromUtf8_eq_some, Option.map_eq_some_iff]
  constructor
  · intro h
    obtain ⟨cs', rfl, hcs'⟩ := exists_of_utf8_eq_append h
    exact ⟨cs', fromUtf8_eq_some.2 hcs', rfl⟩
  · rintro ⟨cs', hcs', rfl⟩
    rw [utf8_append, utf8_nuls, fromUtf8_eq_some.1 hcs']

/-- An ASCII byte at the start is a character of its own. -/
theorem exists_of_utf8_eq_cons {cs : List Char} {b : UInt8} {bs : List UInt8} (hb : b.toNat < 0x80)
    (h : utf8 cs = b :: bs) : ∃ cs', cs = asChar b :: cs' ∧ utf8 cs' = bs := by
  cases cs with
  | nil => cases h
  | cons c cs =>
    rw [utf8_cons] at h
    by_cases hc : c.toNat < 0x80
    · rw [utf8EncodeChar_of_ascii hc, List.singleton_append] at h
      obtain ⟨rfl, rfl⟩ := List.cons_eq_cons.1 h
      rw [asChar, UInt8.toNat_ofNat_of_lt' (hc.trans (by decide)), Char.ofNat_toNat]
      exact ⟨cs, rfl, rfl⟩
    · obtain ⟨b', l, hl⟩ := List.exists_cons_of_ne_nil (String.utf8EncodeChar_ne_nil (c := c))
      rw [hl] at h
      cases h
      exact absurd ((utf8EncodeChar_of_not_ascii (Nat.le_of_not_lt hc)).2 b (by simp [hl]))
        (Nat.not_le_of_lt hb)

/-- Texts with the same bytes are equal. -/
theorem utf8_injective {cs ds : List Char} (h : utf8 cs = utf8 ds) : cs = ds :=
  Option.some.inj ((fromUtf8_eq_some.2 h).symm.trans (fromUtf8_eq_some.2 rfl))

/-- Cutting off a leading `./` is the same on the characters and on the bytes. -/
theorem stripDot_utf8 (cs : List Char) :
    stripDot 0x2E 0x2F (utf8 cs) = utf8 (stripDot '.' '/' cs) := by
  rw [stripDot, stripDot]
  split
  case isTrue h =>
    obtain ⟨rest, hrest⟩ := List.isPrefixOf_iff_prefix.1 h
    obtain ⟨cs₁, rfl, hcs₁⟩ := exists_of_utf8_eq_cons (by decide) hrest.symm
    obtain ⟨cs₂, rfl, -⟩ := exists_of_utf8_eq_cons (by decide) hcs₁
    rfl
  case isFalse h =>
    rw [if_neg]
    rintro hpre
    obtain ⟨cs', rfl⟩ := List.isPrefixOf_iff_prefix.1 hpre
    exact h rfl

/-- What is dropped ends where the rest starts. -/
theorem dropWhile_append_of_head {p : Char → Bool} {pre l : List Char}
    (hpre : ∀ c ∈ pre, p c = true) (hl : ∀ c ∈ l.head?, p c = false) :
    (pre ++ l).dropWhile p = l := by
  rw [List.dropWhile_append_of_pos hpre]
  cases l with
  | nil => rfl
  | cons c l => rw [List.dropWhile_cons_of_neg (by simp [hl c rfl])]

/-- What is left of a string when both its ends are cut off as far as `p` holds. -/
theorem trim_append {p : Char → Bool} {pre cs post : List Char} (hpre : ∀ c ∈ pre, p c = true)
    (hpost : ∀ c ∈ post, p c = true) (hhead : ∀ c ∈ cs.head?, p c = false)
    (hlast : ∀ c ∈ cs.getLast?, p c = false) :
    ((pre ++ (cs ++ post)).dropWhile p).rdropWhile p = cs := by
  rcases eq_or_ne cs [] with rfl | hne
  · rw [List.nil_append, List.dropWhile_eq_nil_iff.2 fun c hc =>
      (List.mem_append.1 hc).elim (hpre c) (hpost c)]
    rfl
  have hdrop : (pre ++ (cs ++ post)).dropWhile p = cs ++ post :=
    dropWhile_append_of_head hpre (by rwa [List.head?_append_of_ne_nil _ hne])
  rw [hdrop, List.rdropWhile, List.reverse_append, dropWhile_append_of_head ?_ ?_,
    List.reverse_reverse]
  · exact fun c hc => hpost c (List.mem_reverse.1 hc)
  · rwa [List.head?_reverse]

/-! ## Headers -/

/-- The characters of the digits. -/
def octalChars (digits : List ℕ) : List Char := digits.map fun k => Char.ofNat (0x30 + k)

section
variable {digits : List ℕ}

/-- The characters of the eight digits are parsed to them. -/
theorem octalDigit_ofNat : ∀ k < 8, octalDigit (Char.ofNat (0x30 + k)) = some k := by decide

/-- A digit is no NUL, no space and no sign. -/
theorem octalChars_spec {c : Char} (hdigits : ∀ k ∈ digits, k < 8) (hc : c ∈ octalChars digits) :
    c ≠ nul ∧ isWhiteSpace c = false ∧ c ≠ '+' ∧ c.toNat < 0x80 := by
  obtain ⟨k, hk, rfl⟩ := List.mem_map.1 hc
  have hall : ∀ k < 8, Char.ofNat (0x30 + k) ≠ nul ∧ isWhiteSpace (Char.ofNat (0x30 + k)) = false ∧
      Char.ofNat (0x30 + k) ≠ '+' ∧ (Char.ofNat (0x30 + k)).toNat < 0x80 := by decide
  exact hall k (hdigits k hk)

/-- Digits are not empty. -/
theorem octalChars_ne_nil (hne : digits ≠ []) : octalChars digits ≠ [] :=
  fun h => hne (List.map_eq_nil_iff.1 h)

/-- The digits are parsed to their number. -/
theorem fromStrRadix8_octalChars (hne : digits ≠ []) (hdigits : ∀ k ∈ digits, k < 8) :
    fromStrRadix8 (octalChars digits) = some (digits.foldl (fun n k => 8 * n + k) 0) := by
  have hfold : ∀ (l : List ℕ) (n : ℕ), (∀ k ∈ l, k < 8) →
      (octalChars l).foldlM (fun n c => (octalDigit c).map (8 * n + ·)) n =
        some (l.foldl (fun n k => 8 * n + k) n) := by
    intro l
    induction l with
    | nil => exact fun n _ => rfl
    | cons k l ih =>
      intro n hl
      rw [octalChars, List.map_cons, List.foldlM_cons,
        octalDigit_ofNat k (hl k List.mem_cons_self)]
      exact ih _ fun k hk => hl k (List.mem_cons_of_mem _ hk)
  have hplus : (octalChars digits).head? ≠ some '+' := fun h =>
    (octalChars_spec hdigits (List.mem_of_head? h)).2.2.1 rfl
  rw [fromStrRadix8, if_neg hplus, if_neg (octalChars_ne_nil hne)]
  exact hfold digits 0 hdigits

end

/-- The size field of a header is read back. -/
theorem headerSize_of_octalField {header : List UInt8} {n : ℕ}
    (h : OctalField (slice header 124 12) n) : headerSize header = n := by
  obtain ⟨a, b, c, digits, hne, hdigits, hbytes, rfl⟩ := h
  have hchars : fromUtf8 (List.replicate a 0x20 ++ digits.map (fun k => UInt8.ofNat (0x30 + k)) ++
      List.replicate b 0x20) =
      some (List.replicate a ' ' ++ (octalChars digits ++ List.replicate b ' ')) := by
    have hascii : ∀ c ∈ octalChars digits, c.toNat < 0x80 := fun c hc =>
      (octalChars_spec hdigits hc).2.2.2
    have hspace : ∀ k, utf8 (List.replicate k ' ') = List.replicate k 0x20 := fun k => by
      rw [utf8_of_ascii fun c hc => by rw [List.eq_of_mem_replicate hc]; decide,
        List.map_replicate]
      rfl
    have hdigit : ∀ k < 8, UInt8.ofNat (Char.ofNat (0x30 + k)).toNat = UInt8.ofNat (0x30 + k) := by
      decide
    rw [fromUtf8_eq_some, utf8_append, utf8_append, hspace, hspace, utf8_of_ascii hascii,
      octalChars, List.map_map, List.append_assoc]
    have hmap : digits.map ((fun c => UInt8.ofNat c.toNat) ∘ fun k => Char.ofNat (0x30 + k)) =
        digits.map fun k => UInt8.ofNat (0x30 + k) :=
      List.map_congr_left fun k hk => hdigit k (hdigits k hk)
    rw [hmap]
  -- first the zero bytes go, then the spaces
  have hnuls : trimNuls (List.replicate a ' ' ++ (octalChars digits ++ List.replicate b ' ') ++
      List.replicate c nul) =
        List.replicate a ' ' ++ (octalChars digits ++ List.replicate b ' ') := by
    have hout : ∀ x ∈ List.replicate a ' ' ++ (octalChars digits ++ List.replicate b ' '),
        decide (x = nul) = false := by
      intro x hx
      rw [List.mem_append, List.mem_append] at hx
      rcases hx with hx | hx | hx
      · rw [List.eq_of_mem_replicate hx]; decide
      · exact decide_eq_false (octalChars_spec hdigits hx).1
      · rw [List.eq_of_mem_replicate hx]; decide
    exact @trim_append _ [] _ _ (by simp) (fun x hx => by simp [List.eq_of_mem_replicate hx])
      (fun x hx => hout x (List.mem_of_head? hx)) fun x hx => hout x (List.mem_of_getLast? hx)
  have hspaces : trimWhiteSpace (List.replicate a ' ' ++
      (octalChars digits ++ List.replicate b ' ')) = octalChars digits := by
    refine trim_append (fun x hx => ?_) (fun x hx => ?_) (fun x hx => ?_) fun x hx => ?_
    · rw [List.eq_of_mem_replicate hx]; decide
    · rw [List.eq_of_mem_replicate hx]; decide
    · exact (octalChars_spec hdigits (List.mem_of_head? hx)).2.1
    · exact (octalChars_spec hdigits (List.mem_of_getLast? hx)).2.1
  rw [headerSize, hbytes, fromUtf8_append_nuls, hchars, Option.map_some, Option.getD_some, hnuls,
    hspaces, fromStrRadix8_octalChars hne hdigits, Option.getD_some]

/-- The name of a member, as the characters of its field. -/
theorem headerName_eq (m : Member) :
    headerName m.header = stripDot '.' '/' ((fromUtf8 m.name).getD []) := by
  rw [headerName, m.name_field, fromUtf8_append_nuls]
  cases hcs : fromUtf8 m.name with
  | none => rfl
  | some cs =>
    have hout : ∀ x ∈ cs, decide (x = nul) = false := by
      rintro x hx
      refine decide_eq_false ?_
      rintro rfl
      refine m.name_nul ?_
      rw [← fromUtf8_eq_some.1 hcs]
      exact List.mem_flatMap.2 ⟨nul, hx, by decide⟩
    rw [Option.map_some, Option.getD_some, Option.getD_some]
    congr 1
    exact @trim_append _ [] _ _ (by simp) (fun x hx => by simp [List.eq_of_mem_replicate hx])
      (fun x hx => hout x (List.mem_of_head? hx)) fun x hx => hout x (List.mem_of_getLast? hx)
/-! ## The members of an archive -/

/-- The characters of the name field of a member, as the parser takes them. -/
def Member.stored (m : Member) : List Char := stripDot '.' '/' ((fromUtf8 m.name).getD [])

/-- The file that the parser makes of a member. -/
def Member.file (m : Member) : Option TarFile :=
  if m.stored = [] ∨ m.stored = ['.'] then none else some ⟨String.ofList m.stored, m.data⟩

section
variable {ms : List Member} {tail : List UInt8}

/-- An archive starts with its first member. -/
theorem archive_cons (m : Member) (ms : List Member) (tail : List UInt8) :
    archive (m :: ms) tail = m.bytes ++ archive ms tail := by
  rw [archive, List.flatMap_cons, List.append_assoc, archive]

/-- At its end nothing more is read. -/
theorem newFrom_tail (h : EndOfArchive tail) : TarFileSystem.newFrom tail = some [] := by
  rw [TarFileSystem.newFrom]
  split
  case isTrue hlen =>
    refine if_pos fun hmagic => ?_
    -- the magic would lie in the block of zeros
    have hslice : slice tail (0 + 257) 5 = slice (slice tail 0 512) 257 5 :=
      (slice_slice tail (by decide)).symm
    rw [Nat.zero_add] at hslice
    have hmem : (0x75 : UInt8) ∈ slice (slice tail 0 512) 257 5 := by
      rw [← hslice, hmagic]
      decide
    exact absurd (h 0x75 (List.mem_of_mem_drop (List.mem_of_mem_take hmem))) (by decide)
  case isFalse => rfl

/-- The blocks of a member fill whole blocks of 512 bytes. -/
theorem Member.length_bytes (m : Member) :
    m.bytes.length = 512 + (m.data.length + 511) / 512 * 512 := by
  rw [Member.bytes, List.length_append, m.length_header, List.length_append,
    List.length_replicate]
  omega

/-- A member has the magic in its header. -/
theorem Member.magic_bytes (m : Member) (rest : List UInt8) :
    slice (m.bytes ++ rest) 257 5 = ustar := by
  have hmagic : slice (slice m.header 257 6) 0 5 = ustar := by
    rw [m.magic]
    rfl
  rw [slice_append_left (by rw [m.length_bytes]; omega), Member.bytes,
    slice_append_left (by rw [m.length_header]; omega), ← hmagic, slice_slice _ (by decide)]

/-- The name in the header of a member is the one it is stored under. -/
theorem Member.headerName_bytes (m : Member) (rest : List UInt8) :
    headerName (m.bytes ++ rest) = m.stored := by
  rw [headerName, slice_append_left (by rw [m.length_bytes]; omega), Member.bytes,
    slice_append_left (by rw [m.length_header]; omega), ← headerName, headerName_eq, Member.stored]

/-- The size in the header of a member is that of its data. -/
theorem Member.headerSize_bytes (m : Member) (rest : List UInt8) :
    headerSize (m.bytes ++ rest) = m.data.length := by
  rw [headerSize, slice_append_left (by rw [m.length_bytes]; omega), Member.bytes,
    slice_append_left (by rw [m.length_header]; omega), ← headerSize,
    headerSize_of_octalField m.size_field]

/-- The data of a member follows its header. -/
theorem Member.data_bytes (m : Member) (rest : List UInt8) :
    slice (m.bytes ++ rest) 512 m.data.length = m.data := by
  have hdrop : (m.header ++ (m.data ++ List.replicate ((512 - m.data.length % 512) % 512) 0)).drop
      512 = m.data ++ List.replicate ((512 - m.data.length % 512) % 512) 0 := by
    rw [← m.length_header, List.drop_left]
  rw [slice_append_left (by rw [m.length_bytes]; omega), Member.bytes, slice, hdrop, List.take_left]

/-- The parser finds every member, with its name and its contents. -/
theorem newFrom_archive (h : EndOfArchive tail) (ms : List Member) :
    TarFileSystem.newFrom (archive ms tail) = some (ms.filterMap Member.file) := by
  induction ms with
  | nil => exact newFrom_tail h
  | cons m ms ih =>
    have hlen : m.bytes.length ≤ (m.bytes ++ archive ms tail).length := by
      rw [List.length_append]
      omega
    rw [m.length_bytes] at hlen
    have hrest : (m.bytes ++ archive ms tail).drop (512 + (m.data.length + 511) / 512 * 512) =
        archive ms tail := by
      rw [← m.length_bytes, List.drop_left]
    rw [archive_cons, TarFileSystem.newFrom, if_pos (by omega), m.magic_bytes,
      if_neg (not_not.2 rfl)]
    simp only [m.headerName_bytes, m.headerSize_bytes, m.data_bytes, hrest, ih]
    rw [List.filterMap_cons, Member.file]
    split
    case isTrue hskip => rfl
    case isFalse hname => rw [if_pos (by omega), Option.map_some]

/-- The stored name is `c` when the name field is. -/
theorem Member.stored_eq_iff (m : Member) {c : List Char} (hne : c ≠ []) :
    m.stored = c ↔ stripDot 0x2E 0x2F m.name = utf8 c := by
  rw [Member.stored]
  cases hcs : fromUtf8 m.name with
  | some cs =>
    rw [Option.getD_some, ← fromUtf8_eq_some.1 hcs, stripDot_utf8]
    exact ⟨fun h => by rw [h], utf8_injective⟩
  | none =>
    -- a name that is no string is stored as the empty one
    refine iff_of_false hne.symm fun h => ?_
    have hname : ∃ cs, utf8 cs = m.name := by
      rw [stripDot] at h
      split at h
      case isTrue hpre =>
        obtain ⟨rest, hrest⟩ := List.isPrefixOf_iff_prefix.1 hpre
        refine ⟨'.' :: '/' :: c, ?_⟩
        rw [← hrest] at h ⊢
        rw [utf8_cons, utf8_cons, ← h]
        rfl
      case isFalse => exact ⟨c, h.symm⟩
    obtain ⟨cs, hname⟩ := hname
    rw [fromUtf8_eq_some.2 hname] at hcs
    cases hcs

/-- No file is named `.`. -/
theorem Member.file_name_ne_dot (m : Member) {f : TarFile} (h : m.file = some f) :
    f.name.toList ≠ ['.'] := by
  rw [Member.file] at h
  split at h
  case isTrue => cases h
  case isFalse hname =>
    cases h
    rw [String.toList_ofList]
    exact (not_or.1 hname).2

/-- Looking a name up among the files is looking for the first member stored under it. -/
theorem find?_files {c : List Char} (hne : c ≠ []) (hdot : c ≠ ['.']) (ms : List Member) :
    (ms.filterMap Member.file).find? (·.name = String.ofList c) =
      (ms.find? fun m => stripDot 0x2E 0x2F m.name = utf8 c).map
        fun m => ⟨String.ofList c, m.data⟩ := by
  induction ms with
  | nil => rfl
  | cons m ms ih =>
    rw [List.filterMap_cons, List.find?_cons, Member.file]
    by_cases hm : m.stored = c
    · have hfile : ¬ (m.stored = [] ∨ m.stored = ['.']) := by
        rw [hm]
        exact not_or.2 ⟨hne, hdot⟩
      rw [if_neg hfile, decide_eq_true ((m.stored_eq_iff hne).1 hm)]
      simp [hm]
    · rw [decide_eq_false (mt (m.stored_eq_iff hne).2 hm)]
      split
      case h_1 => exact ih
      case h_2 f hf =>
        split at hf
        case isTrue => cases hf
        case isFalse =>
          cases hf
          rw [List.find?_cons_of_neg, ih]
          simpa [String.ofList_inj] using hm

/-! ## Reaching a member -/

/-- Whatever is mounted as the disk, the path opens a file of these bytes when the archive is the
root file system. -/
def Reached (ms : List Member) (tail : List UInt8) (path : List Char) (bytes : List UInt8) : Prop :=
  ∃ files, TarFileSystem.new (archive ms tail) = some files ∧
    ∀ (diskRoot : Option Node) (fuel : ℕ) (d : Disk), ∃ node,
      (⟨some (.tarFileSystem files), diskRoot⟩ : VfsRoot).openPath fuel path d = .ok node d ∧
        node.Holds d bytes

/-- The path has one component, and the first member with this name in its name field, but for a
leading `./`, has the contents of `m`. -/
def Flat (ms : List Member) (m : Member) (path : List Char) : Prop :=
  ∃ c : List Char, components path = [String.ofList c] ∧ c ≠ ['.'] ∧
    ∃ m', ms.find? (fun m' => stripDot 0x2E 0x2F m'.name = utf8 c) = some m' ∧ m'.data = m.data

/-- The root file system finds a path of one component as a file of that name. -/
theorem openPath_of_name {files : List TarFile} {diskRoot : Option Node} {path : List Char}
    {name : String} (hpath : components path = [name]) (fuel : ℕ) (d : Disk) :
    (⟨some (.tarFileSystem files), diskRoot⟩ : VfsRoot).openPath fuel path d =
      match files.find? (·.name = name) with
      | some f => .ok (.tarFile f) d
      | none => .error (.err ()) d := by
  have hpre : ¬ diskPrefix <+: trimSlashes path := fun h => by
    have := two_le_components h
    rw [hpath, List.length_singleton] at this
    omega
  rw [VfsRoot.openPath, if_neg (mt diskPrefix_isPrefixOf.1 hpre), lookupFrom,
    components_trimSlashes, hpath]
  show (Node.finddir fuel name (.tarFileSystem files) >>= pure) d = _
  rw [bind_pure, Node.finddir]
  cases files.find? (·.name = name) <;> rfl

/-- A path of no component, or of more than one, is no file of the root file system. -/
theorem exists_name_of_openPath {files : List TarFile} {path : List Char} {fuel : ℕ} {d : Disk}
    {node : Node} {bytes : List UInt8}
    (h : (⟨some (.tarFileSystem files), none⟩ : VfsRoot).openPath fuel path d = .ok node d)
    (hnode : node.Holds d bytes) : ∃ name, components path = [name] := by
  rw [VfsRoot.openPath] at h
  split at h
  case isTrue => cases h
  case isFalse =>
    rw [lookupFrom, components_trimSlashes] at h
    rcases hnames : components path with _ | ⟨name, _ | ⟨name', names⟩⟩
    · rw [hnames] at h
      cases h
      cases hnode
    · exact ⟨name, rfl⟩
    · rw [hnames] at h
      simp only [List.foldlM_cons] at h
      obtain ⟨first, d₁, hfirst, h⟩ := Exec.bind_eq_ok.1 h
      obtain ⟨second, d₂, hsecond, -⟩ := Exec.bind_eq_ok.1 h
      rw [Node.finddir] at hfirst
      -- what the ram disk finds is a file, and a file finds nothing
      cases hfind : files.find? (·.name = name) with
      | some f =>
        rw [hfind] at hfirst
        cases hfirst
        cases hsecond
      | none =>
        rw [hfind] at hfirst
        cases hfirst

/-- What the first member with a name contains is reached under that name. -/
theorem Flat.reached (h : EndOfArchive tail) {m : Member} {path : List Char}
    (hflat : Flat ms m path) : Reached ms tail path m.data := by
  obtain ⟨c, hpath, hdot, m', hm', hdata⟩ := hflat
  have hne : c ≠ [] := by
    have := ne_empty_of_mem_components (by rw [hpath]; exact List.mem_singleton.2 rfl)
    rwa [String.toList_ofList] at this
  refine ⟨_, newFrom_archive h ms, fun diskRoot fuel d =>
    ⟨.tarFile ⟨String.ofList c, m'.data⟩, ?_, ?_⟩⟩
  · rw [openPath_of_name hpath, find?_files hne hdot, hm']
    rfl
  · rw [← hdata]
    exact .tarFile _

/-- A path leads to a member's contents just when the archive has them under that one name. -/
theorem reached_iff (h : EndOfArchive tail) (m : Member) (path : List Char) :
    Reached ms tail path m.data ↔ Flat ms m path := by
  constructor
  · rintro ⟨files, hnew, hopen⟩
    cases (newFrom_archive h ms).symm.trans hnew
    obtain ⟨node, hrun, hnode⟩ := hopen none 0 emptyDisk
    obtain ⟨name, hname⟩ := exists_name_of_openPath hrun hnode
    rw [openPath_of_name hname] at hrun
    have hne : name.toList ≠ [] := ne_empty_of_mem_components (by rw [hname]; simp)
    cases hfind : (ms.filterMap Member.file).find? (·.name = name) with
    | none =>
      rw [hfind] at hrun
      cases hrun
    | some f =>
      rw [hfind] at hrun
      cases hrun
      have hdot : name.toList ≠ ['.'] := fun hdot => by
        obtain ⟨m', -, hfile⟩ := List.mem_filterMap.1 (List.mem_of_find?_eq_some hfind)
        have hf : f.name = name := by simpa using List.find?_some hfind
        rw [← hf] at hdot
        exact m'.file_name_ne_dot hfile hdot
      rw [← String.ofList_toList (s := name), find?_files hne hdot] at hfind
      obtain ⟨m', hm', rfl⟩ := Option.map_eq_some_iff.1 hfind
      have hdata : m'.data = m.data := by
        generalize m.data = bytes at hnode ⊢
        cases hnode
        rfl
      exact ⟨name.toList, by rw [hname, String.ofList_toList], hdot, m', hm', hdata⟩
  · exact fun hflat => hflat.reached h

/-- In an archive whose members have distinct paths and no `prefix` field, a member whose path has
no slash is reached. -/
theorem reached_of_flat_archive (h : EndOfArchive tail) {m : Member} {path : List Char}
    (hdistinct : (ms.map Member.path).Nodup) (hparent : ∀ m ∈ ms, m.parent = []) (hm : m ∈ ms)
    (hpath : m.path = utf8 path) (hslash : '/' ∉ path) (hne : path ≠ []) (hdot : path ≠ ['.']) :
    Reached ms tail path m.data := by
  have hstored : ∀ m' ∈ ms, stripDot 0x2E 0x2F m'.name = m'.path := fun m' hm' => by
    rw [Member.path, if_pos (hparent m' hm')]
  refine Flat.reached h ⟨path, components_word hslash hne, hdot, ?_⟩
  cases hfind : ms.find? (fun m' => stripDot 0x2E 0x2F m'.name = utf8 path) with
  | none =>
    refine absurd (List.find?_eq_none.1 hfind m hm) (not_not.2 ?_)
    rw [hstored m hm, hpath]
    exact decide_eq_true rfl
  | some m' =>
    have hm' := List.mem_of_find?_eq_some hfind
    have hname : m'.path = utf8 path := by
      rw [← hstored m' hm']
      simpa using List.find?_some hfind
    rw [List.inj_on_of_nodup_map hdistinct hm' hm (hname.trans hpath.symm)]
    exact ⟨m, rfl, rfl⟩

end

/-! ## Two archives -/

/-- What follows the name field in the header of a file of one byte. -/
def tinyFields : List UInt8 :=
  List.replicate 24 0 ++ List.replicate 10 0x30 ++ [0x31, 0] ++ List.replicate 20 0 ++ [0x30] ++
    List.replicate 100 0 ++ ustar ++ [0, 0x30, 0x30] ++ List.replicate 247 0

/-- The header of a file of one byte. -/
def tinyHeader (name : List UInt8) : List UInt8 :=
  name ++ List.replicate (100 - name.length) 0 ++ tinyFields

section
variable {name : List UInt8} (hlen : name.length ≤ 100)
include hlen

/-- The padded name has 100 bytes. -/
theorem length_tinyName :
    (name ++ List.replicate (100 - name.length) (0 : UInt8)).length = 100 := by
  rw [List.length_append, List.length_replicate]
  omega

/-- The header has 512 bytes. -/
theorem length_tinyHeader : (tinyHeader name).length = 512 := by
  have hfields : tinyFields.length = 412 := by decide +kernel
  rw [tinyHeader, List.length_append, length_tinyName hlen, hfields]

/-- The fields behind the name are those of every small member. -/
theorem slice_tinyHeader (o n : ℕ) : slice (tinyHeader name) (100 + o) n = slice tinyFields o n :=
  slice_append_right (length_tinyName hlen) o n

/-- The magic is at 257. -/
theorem tinyHeader_magic : slice (tinyHeader name) 257 6 = ustar ++ [0] :=
  (slice_tinyHeader hlen 157 6).trans (by decide +kernel)

/-- The name is at 0. -/
theorem tinyHeader_name :
    slice (tinyHeader name) 0 100 = name ++ List.replicate (100 - name.length) 0 := by
  have hname := length_tinyName hlen
  rw [tinyHeader, slice_append_left hname.ge, slice, List.drop_zero,
    List.take_of_length_le hname.le]

/-- There is no prefix. -/
theorem tinyHeader_parent : slice (tinyHeader name) 345 155 = [] ++ List.replicate (155 - 0) 0 :=
  (slice_tinyHeader hlen 245 155).trans (by decide +kernel)

/-- The size is one. -/
theorem tinyHeader_size : OctalField (slice (tinyHeader name) 124 12) 1 :=
  ⟨0, 0, 1, List.replicate 10 0 ++ [1], by decide, by decide,
    (slice_tinyHeader hlen 24 12).trans (by decide +kernel), by decide⟩

end

/-- A file of one byte. -/
def tinyMember (name : List UInt8) (hlen : name.length ≤ 100) (hnul : 0 ∉ name) : Member where
  header := tinyHeader name
  name := name
  parent := []
  data := [7]
  length_header := length_tinyHeader hlen
  magic := tinyHeader_magic hlen
  name_field := tinyHeader_name hlen
  name_nul := hnul
  parent_field := tinyHeader_parent hlen
  parent_nul := List.not_mem_nil
  size_field := tinyHeader_size hlen

/-- `a` at the top of an archive. -/
def topA : Member := tinyMember [0x61] (by decide) (by decide)

/-- `d/a`. -/
def belowD : Member := tinyMember [0x64, 0x2F, 0x61] (by decide) (by decide)

/-- A file at the top of the archive is reached, behind one in a directory. -/
theorem reached_top : Reached [belowD, topA] [] "a".toList [7] := by
  refine (reached_iff (fun _ hb => absurd hb List.not_mem_nil) topA "a".toList).2
    ⟨['a'], by decide, by decide, topA, ?_, rfl⟩
  rw [List.find?_cons_of_neg, List.find?_cons_of_pos]
  · exact decide_eq_true (by decide)
  · exact fun h => absurd (of_decide_eq_true h) (by decide)

/-- A file in a directory is not. -/
theorem not_reached_below : EndOfArchive [] ∧ belowD.path = utf8 "d/a".toList ∧
    ¬ Reached [belowD] [] "d/a".toList [7] := by
  refine ⟨fun _ hb => absurd hb List.not_mem_nil, by decide, ?_⟩
  rintro ⟨files, -, hopen⟩
  obtain ⟨node, hrun, hnode⟩ := hopen none 0 emptyDisk
  obtain ⟨name, hname⟩ := exists_name_of_openPath hrun hnode
  have hlen := congrArg List.length hname
  rw [List.length_singleton] at hlen
  exact absurd hlen (by decide)

end RossOs
