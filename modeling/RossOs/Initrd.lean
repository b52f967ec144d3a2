import RossOs.Ramfs
import RossOs.Lib.Scan

/-!
# The parser of the initial ram disk

Two results about `TarFileSystem::new`. `new_encoded`: it takes an encoded archive apart into the
files that were encoded. And on arbitrary bytes: `parse` is the parser again with its offsets and
the checks that the language makes on sums and slices, so that it says where in the input each file
lies. It returns exactly when no header that it comes to declares more data than there is
(`parse_inside_iff`).
-/

namespace RossOs

open ByteMem Fat

/-! ## Encoded archives -/

/-- A file to be put into an archive. -/
structure TarEntry where
  name : List Char
  content : List UInt8
  name_ne : name ≠ []
  name_le : (utf8 name).length ≤ 100
  name_nul : nul ∉ name
  content_lt : content.length < 8 ^ 11

namespace TarEntry

/-- The name without one leading `./`. -/
def shownName (e : TarEntry) : List Char := stripDot '.' '/' e.name

/-- The file that the archive has for an entry, if it has one. -/
def file (e : TarEntry) : Option TarFile :=
  if e.shownName = [] ∨ e.shownName = ['.'] then none
  else some ⟨String.ofList e.shownName, e.content⟩

/-- The member `m` is an encoding of `e`, with an empty field `prefix`. -/
structure Encodes (m : Member) (e : TarEntry) : Prop where
  name : m.name = utf8 e.name
  parent : m.parent = []
  data : m.data = e.content

/-- The parser makes of an encoding what was encoded. -/
theorem Encodes.file_eq {m : Member} {e : TarEntry} (h : Encodes m e) : m.file = e.file := by
  have hstored : m.stored = e.shownName := by
    rw [Member.stored, h.name, fromUtf8_eq_some.2 rfl]
    rfl
  rw [Member.file, file, hstored, h.data]

end TarEntry

/-- Parsing undoes encoding. -/
theorem new_encoded {es : List TarEntry} {ms : List Member} {tail : List UInt8}
    (h : List.Forall₂ TarEntry.Encodes ms es) (htail : EndOfArchive tail) :
    TarFileSystem.new (archive ms tail) = some (es.filterMap TarEntry.file) := by
  have hfiles : ms.filterMap Member.file = es.filterMap TarEntry.file := by
    clear htail
    induction h with
    | nil => rfl
    | cons hm _ ih => rw [List.filterMap_cons, List.filterMap_cons, hm.file_eq, ih]
  rw [TarFileSystem.new, newFrom_archive htail, hfiles]

/-! ## An encoder -/

/-- The last `k` octal digits of a number. -/
def octalDigits : ℕ → ℕ → List ℕ
  | 0, _ => []
  | k + 1, n => octalDigits k (n / 8) ++ [n % 8]

/-- As many digits as asked for. -/
theorem length_octalDigits (k n : ℕ) : (octalDigits k n).length = k := by
  induction k generalizing n with
  | zero => rfl
  | succ k ih => rw [octalDigits, List.length_append, ih, List.length_singleton]

/-- Octal digits are below 8. -/
theorem octalDigits_lt {k n d : ℕ} (h : d ∈ octalDigits k n) : d < 8 := by
  induction k generalizing n with
  | zero => cases h
  | succ k ih =>
    rcases List.mem_append.1 h with h | h
    · exact ih h
    · rw [List.mem_singleton.1 h]
      exact Nat.mod_lt _ (by decide)

/-- The digits give the number back. -/
theorem foldl_octalDigits (k n : ℕ) :
    (octalDigits k n).foldl (fun n d => 8 * n + d) 0 = n % 8 ^ k := by
  induction k generalizing n with
  | zero => rw [Nat.pow_zero, Nat.mod_one]; rfl
  | succ k ih =>
    rw [octalDigits, List.foldl_append, ih, List.foldl_cons, List.foldl_nil, Nat.pow_succ,
      Nat.mul_comm (8 ^ k), Nat.mod_mul]
    omega

/-- Eleven octal digits and a zero byte. -/
def sizeField (n : ℕ) : List UInt8 :=
  (octalDigits 11 n).map (fun k => UInt8.ofNat (0x30 + k)) ++ [0]

/-- The size field has 12 bytes. -/
theorem length_sizeField (n : ℕ) : (sizeField n).length = 12 := by
  rw [sizeField, List.length_append, List.length_map, length_octalDigits, List.length_singleton]

/-- It is an octal field of the size. -/
theorem octalField_sizeField {n : ℕ} (h : n < 8 ^ 11) : OctalField (sizeField n) n := by
  refine ⟨0, 0, 1, octalDigits 11 n, ?_, fun d hd => octalDigits_lt hd, ?_, ?_⟩
  · exact List.ne_nil_of_length_pos (by rw [length_octalDigits]; decide)
  · rw [sizeField, List.replicate_zero, List.nil_append, List.append_nil]
    rfl
  · rw [foldl_octalDigits, Nat.mod_eq_of_lt h]

/-- A zero byte is a character of its own. -/
theorem nul_mem_of_utf8 {cs : List Char} (h : 0 ∈ utf8 cs) : nul ∈ cs := by
  obtain ⟨c, hc, hbyte⟩ := List.mem_flatMap.1 h
  by_cases hascii : c.toNat < 0x80
  · rw [utf8EncodeChar_of_ascii hascii, List.mem_singleton] at hbyte
    have hzero : c.toNat = 0 := by
      have := congrArg UInt8.toNat hbyte
      rw [UInt8.toNat_ofNat_of_lt' (hascii.trans (by decide))] at this
      exact this.symm
    rwa [← Char.ofNat_toNat c, hzero] at hc
  · have := (utf8EncodeChar_of_not_ascii (Nat.le_of_not_lt hascii)).2 0 hbyte
    exact absurd this (by decide)

/-- An empty text has no NUL. -/
theorem nul_notMem_nil : (0 : UInt8) ∉ ([] : List UInt8) := List.not_mem_nil

/-- What follows the size in a header: times, checksum and owners are left at zero. -/
def laterFields : List UInt8 :=
  List.replicate 20 0 ++ [0x30] ++ List.replicate 100 0 ++ ustar ++ [0, 0x30, 0x30] ++
    List.replicate 247 0

namespace TarEntry

variable (e : TarEntry)

/-- The name field of an entry. -/
def nameBytes : List UInt8 := utf8 e.name ++ List.replicate (100 - (utf8 e.name).length) 0

/-- The header of an entry. -/
def header : List UInt8 :=
  e.nameBytes ++ (List.replicate 24 0 ++ (sizeField e.content.length ++ laterFields))

/-- The name field has 100 bytes. -/
theorem length_nameBytes : e.nameBytes.length = 100 := by
  have := e.name_le
  rw [nameBytes, List.length_append, List.length_replicate]
  omega

/-- The size field is at 124. -/
theorem slice_header_size : slice e.header 124 12 = sizeField e.content.length := by
  have hlen := length_sizeField e.content.length
  rw [header, show 124 = 100 + 24 by rfl, slice_append_right e.length_nameBytes,
    show 24 = 24 + 0 by rfl, slice_append_right List.length_replicate,
    slice_append_left (by rw [hlen]), slice, List.drop_zero, List.take_of_length_le hlen.le]

/-- It says how long the content is. -/
theorem octalField_header : OctalField (slice e.header 124 12) e.content.length := by
  rw [e.slice_header_size]
  exact octalField_sizeField e.content_lt

/-- The fields behind the size are those of every header. -/
theorem slice_header_later (o n : ℕ) : slice e.header (136 + o) n = slice laterFields o n := by
  rw [header, show 136 + o = 100 + (24 + (12 + o)) by omega,
    slice_append_right e.length_nameBytes, slice_append_right List.length_replicate,
    slice_append_right (length_sizeField _)]

/-- A header has 512 bytes. -/
theorem length_header : e.header.length = 512 := by
  have hlater : laterFields.length = 376 := by decide +kernel
  rw [header, List.length_append, e.length_nameBytes, List.length_append, List.length_replicate,
    List.length_append, length_sizeField, hlater]

/-- The magic is at 257. -/
theorem slice_header_magic : slice e.header 257 6 = ustar ++ [0] :=
  (e.slice_header_later 121 6).trans (by decide +kernel)

/-- The name is at 0. -/
theorem slice_header_name : slice e.header 0 100 = e.nameBytes := by
  rw [header, slice_append_left e.length_nameBytes.ge, slice, List.drop_zero,
    List.take_of_length_le e.length_nameBytes.le]

/-- There is no prefix. -/
theorem slice_header_parent : slice e.header 345 155 = List.replicate 155 0 :=
  (e.slice_header_later 209 155).trans (by decide +kernel)

/-- The encoding of an entry. -/
def member : Member where
  header := e.header
  name := utf8 e.name
  parent := []
  data := e.content
  length_header := e.length_header
  magic := e.slice_header_magic
  name_field := e.slice_header_name
  name_nul := fun h => e.name_nul (nul_mem_of_utf8 h)
  parent_field := e.slice_header_parent
  parent_nul := nul_notMem_nil
  size_field := e.octalField_header

/-- Every entry has an encoding. -/
theorem member_encodes : Encodes e.member e := ⟨rfl, rfl, rfl⟩

end TarEntry

/-- `./a`, a file of one byte. -/
def dotA : TarEntry where
  name := ['.', '/', 'a']
  content := [7]
  name_ne := by decide
  name_le := by decide
  name_nul := by decide
  content_lt := by decide

/-- `./`, the directory itself. -/
def dotDir : TarEntry where
  name := ['.', '/']
  content := []
  name_ne := by decide
  name_le := by decide
  name_nul := by decide
  content_lt := by decide

/-- `b`, an empty file. -/
def plainB : TarEntry where
  name := ['b']
  content := []
  name_ne := by decide
  name_le := by decide
  name_nul := by decide
  content_lt := by decide

/-- An archive with the directory and two files, one of them without `./`. -/
theorem new_encoded_two_files :
    TarFileSystem.new (archive [dotDir.member, dotA.member, plainB.member] []) =
      some ([dotDir, dotA, plainB].filterMap TarEntry.file) :=
  new_encoded (.cons dotDir.member_encodes (.cons dotA.member_encodes
    (.cons plainB.member_encodes .nil))) fun _ hb => absurd hb List.not_mem_nil

example : [dotDir, dotA, plainB].filterMap TarEntry.file = [⟨"a", [7]⟩, ⟨"b", []⟩] := by decide

/-! ## The parser on arbitrary bytes -/

/-- A byte slice. The language keeps its length below `2 ^ 63`. -/
structure ByteSlice where
  bytes : List UInt8
  length_lt : bytes.length < 2 ^ 63

/-- A file as the parser keeps it: `data` is the range of `size` bytes from `start` on. -/
structure TarRange where
  name : String
  start : ℕ
  size : ℕ
deriving DecidableEq, Repr

/-- The range lies in the input. -/
def TarRange.Inside (data : List UInt8) (r : TarRange) : Prop := r.start + r.size ≤ data.length

/-- The file with its bytes. -/
def TarRange.file (data : List UInt8) (r : TarRange) : TarFile :=
  ⟨r.name, slice data r.start r.size⟩

/-- A sum that fits into a `usize`. Others panic. -/
def Fits (n : ℕ) : Prop := n < 2 ^ 64

@[irreducible] instance Fits.decidable (n : ℕ) : Decidable (Fits n) :=
  inferInstanceAs (Decidable (_ < _))

namespace TarFileSystem

/-- The header at `offset` has the magic bytes. -/
def IsHeader (data : List UInt8) (offset : ℕ) : Prop := slice data (offset + 257) 5 = ustar

instance (data : List UInt8) (offset : ℕ) : Decidable (IsHeader data offset) :=
  inferInstanceAs (Decidable (_ = _))

/-- The name in the header at `offset`. -/
def nameAt (data : List UInt8) (offset : ℕ) : List Char := headerName (data.drop offset)

/-- The size in the header at `offset`. -/
def sizeAt (data : List UInt8) (offset : ℕ) : ℕ := headerSize (data.drop offset)

/-- The file that the parser makes of the member at `offset`. -/
def rangeAt (data : List UInt8) (offset : ℕ) : TarRange :=
  ⟨String.ofList (nameAt data offset), offset + 512, sizeAt data offset⟩

/-- The offset behind the blocks of the member at `offset`. -/
def afterMember (data : List UInt8) (offset : ℕ) : ℕ :=
  offset + (512 + (sizeAt data offset + 511) / 512 * 512)

/-- The entry at `offset` is left out. -/
def Skipped (data : List UInt8) (offset : ℕ) : Prop :=
  nameAt data offset = [] ∨ nameAt data offset = ['.']

instance (data : List UInt8) (offset : ℕ) : Decidable (Skipped data offset) :=
  inferInstanceAs (Decidable (_ ∨ _))

/-- The loop of `TarFileSystem::new` from `offset` on. `none` is a panic: a sum that overflows, or a
slice that is not in the input. -/
def parseFrom (data : List UInt8) (offset : ℕ) : Option (List TarRange) :=
  if ¬ Fits (offset + 512) then none
  else if offset + 512 ≤ data.length then
    if ¬ IsHeader data offset then some []
    else if Skipped data offset then
      if Fits (sizeAt data offset + 511) ∧ Fits (afterMember data offset) then
        parseFrom data (afterMember data offset)
      else none
    else if Fits (offset + 512 + sizeAt data offset) ∧
        offset + 512 + sizeAt data offset ≤ data.length then
      if Fits (sizeAt data offset + 511) ∧ Fits (afterMember data offset) then
        (parseFrom data (afterMember data offset)).map (rangeAt data offset :: ·)
      else none
    else none
  else some []
termination_by data.length - offset
decreasing_by all_goals (rw [afterMember]; omega)

/-- `TarFileSystem::new`, with the ranges of the files. -/
def parse (data : ByteSlice) : Option (List TarRange) := parseFrom data.bytes 0

/-- The offset of the header behind the one at `offset`. -/
def nextHeader (data : List UInt8) (offset : ℕ) : Option ℕ :=
  if offset + 512 ≤ data.length ∧ IsHeader data offset then some (afterMember data offset) else none

/-- The member at `offset` has its data in the input. -/
def MemberFits (data : List UInt8) (offset : ℕ) : Prop :=
  offset + 512 ≤ data.length → IsHeader data offset → ¬ Skipped data offset →
    offset + 512 + sizeAt data offset ≤ data.length

/-- Every member that the parser comes to from `offset` on, and does not leave out, has its data in
the input. -/
def MembersFit (data : List UInt8) : ℕ → Prop := Scan.Throughout (nextHeader data) (MemberFits data)

end TarFileSystem

/-! ## Sizes -/

/-- Octal digits make a number with no more digits. -/
theorem foldlM_octalDigit_lt {cs : List Char} {n k : ℕ}
    (h : cs.foldlM (fun n c => (octalDigit c).map (8 * n + ·)) n = some k) :
    k < (n + 1) * 8 ^ cs.length := by
  induction cs generalizing n with
  | nil =>
    cases h
    simp
  | cons c cs ih =>
    rw [List.foldlM_cons] at h
    obtain ⟨n', hn', hrest⟩ := Option.bind_eq_some_iff.1 h
    obtain ⟨d, hd, rfl⟩ := Option.map_eq_some_iff.1 hn'
    have hd8 : d < 8 := by
      rw [octalDigit] at hd
      split at hd
      case isTrue hrange =>
        cases hd
        omega
      case isFalse => cases hd
    calc k < (8 * n + d + 1) * 8 ^ cs.length := ih hrest
      _ ≤ (8 * (n + 1)) * 8 ^ cs.length := Nat.mul_le_mul_right _ (by omega)
      _ = (n + 1) * 8 ^ (c :: cs).length := by
        rw [List.length_cons, Nat.pow_succ', Nat.mul_comm 8, Nat.mul_assoc]

/-- The number has three bits a digit. -/
theorem fromStrRadix8_lt {cs : List Char} {k : ℕ} (h : fromStrRadix8 cs = some k) :
    k < 8 ^ cs.length := by
  have hlen : (if cs.head? = some '+' then cs.tail else cs).length ≤ cs.length := by
    split
    · rw [List.length_tail]
      omega
    · exact le_rfl
  rw [fromStrRadix8] at h
  generalize (if cs.head? = some '+' then cs.tail else cs) = digits at h hlen
  split at h
  case isTrue => cases h
  case isFalse =>
    have hk := foldlM_octalDigit_lt h
    rw [Nat.zero_add, Nat.one_mul] at hk
    exact Nat.lt_of_lt_of_le hk (Nat.pow_le_pow_right (by decide) hlen)

/-- Trimming does not make a text longer. -/
theorem length_trim_le (p q : Char → Bool) (cs : List Char) :
    ((cs.dropWhile p).rdropWhile q).length ≤ cs.length :=
  ((List.rdropWhile_prefix _ _).length_le).trans (List.dropWhile_sublist p).length_le

/-- The size in a header has at most twelve digits. -/
theorem headerSize_lt (header : List UInt8) : headerSize header < 8 ^ 12 := by
  have hfield : ((fromUtf8 (slice header 124 12)).getD ['0']).length ≤ 12 := by
    cases hcs : fromUtf8 (slice header 124 12) with
    | none => decide
    | some cs =>
      have hutf8 := length_le_utf8 cs
      rw [fromUtf8_eq_some.1 hcs] at hutf8
      exact hutf8.trans (List.length_take_le _ _)
  have hchars : (trimWhiteSpace (trimNuls ((fromUtf8 (slice header 124 12)).getD ['0']))).length ≤
      12 := ((length_trim_le _ _ _).trans (length_trim_le _ _ _)).trans hfield
  rw [headerSize]
  cases hsize : fromStrRadix8 (trimWhiteSpace
      (trimNuls ((fromUtf8 (slice header 124 12)).getD ['0']))) with
  | none => decide
  | some k =>
    exact Nat.lt_of_lt_of_le (fromStrRadix8_lt hsize) (Nat.pow_le_pow_right (by decide) hchars)

/-! ## Files in the input -/

namespace TarFileSystem

section
variable {data : List UInt8} {offset : ℕ}

/-- One turn of the loop, where no sum overflows. -/
theorem parseFrom_eq (hoffset : offset < 2 ^ 63 + 2 ^ 37) :
    parseFrom data offset =
      if offset + 512 ≤ data.length ∧ IsHeader data offset then
        if Skipped data offset then parseFrom data (afterMember data offset)
        else if offset + 512 + sizeAt data offset ≤ data.length then
          (parseFrom data (afterMember data offset)).map (rangeAt data offset :: ·)
        else none
      else some [] := by
  have hsize : sizeAt data offset < 8 ^ 12 := headerSize_lt _
  obtain ⟨h1, h2, h3, h4⟩ : Fits (offset + 512) ∧ Fits (offset + 512 + sizeAt data offset) ∧
      Fits (sizeAt data offset + 511) ∧ Fits (afterMember data offset) := by
    simp only [Fits, afterMember]
    omega
  rw [parseFrom, if_neg (not_not.2 h1)]
  by_cases hlen : offset + 512 ≤ data.length
  · rw [if_pos hlen]
    by_cases hmagic : IsHeader data offset
    · rw [if_neg (not_not.2 hmagic), if_pos (And.intro hlen hmagic)]
      by_cases hskip : Skipped data offset
      · rw [if_pos hskip, if_pos hskip, if_pos (And.intro h3 h4)]
      · rw [if_neg hskip, if_neg hskip]
        exact if_congr (and_iff_right h2) (if_pos ⟨h3, h4⟩) rfl
    · rw [if_pos hmagic, if_neg fun h => hmagic h.2]
  · rw [if_neg hlen, if_neg fun h => hlen h.1]

/-- The same turn of the parser without offsets. -/
theorem newFrom_drop (data : List UInt8) (offset : ℕ) :
    newFrom (data.drop offset) =
      if offset + 512 ≤ data.length ∧ IsHeader data offset then
        if Skipped data offset then newFrom (data.drop (afterMember data offset))
        else if offset + 512 + sizeAt data offset ≤ data.length then
          (newFrom (data.drop (afterMember data offset))).map ((rangeAt data offset).file data :: ·)
        else none
      else some [] := by
  have hslice : ∀ o n, slice (data.drop offset) o n = slice data (offset + o) n := fun o n => by
    rw [slice, List.drop_drop, slice]
  have hrest : (data.drop offset).drop (512 + (headerSize (data.drop offset) + 511) / 512 * 512) =
      data.drop (afterMember data offset) := List.drop_drop
  rw [newFrom]
  simp only [hslice, hrest, List.length_drop]
  by_cases hlen : offset + 512 ≤ data.length
  · rw [if_pos (by omega)]
    by_cases hmagic : IsHeader data offset
    · have hbytes : slice data (offset + 257) 5 = ustar := hmagic
      rw [if_neg (not_not.2 hbytes), if_pos (And.intro hlen hmagic)]
      have hroom : 512 + headerSize (data.drop offset) ≤ data.length - offset ↔
          offset + 512 + headerSize (data.drop offset) ≤ data.length := by omega
      simp only [rangeAt, TarRange.file, nameAt, sizeAt]
      exact if_congr Iff.rfl rfl (if_congr hroom rfl rfl)
    · have hbytes : slice data (offset + 257) 5 ≠ ustar := hmagic
      rw [if_pos hbytes, if_neg fun h => hmagic h.2]
  · rw [if_neg (by omega), if_neg fun h => hlen h.1]

/-- The data of a member lies in the input if it ends there. -/
theorem rangeAt_inside :
    (rangeAt data offset).Inside data ↔ offset + 512 + sizeAt data offset ≤ data.length := by
  simp only [TarRange.Inside, rangeAt]

/-- Where the loop stops nothing is asked. -/
theorem membersFit_of_stop (h : ¬ (offset + 512 ≤ data.length ∧ IsHeader data offset)) :
    MembersFit data offset := by
  have hnext : nextHeader data offset = none := if_neg h
  exact (Scan.throughout_of_none hnext).2 fun hlen hmagic => absurd ⟨hlen, hmagic⟩ h

/-- Where it goes on, the member fits and so do the rest. -/
theorem membersFit_next (h : offset + 512 ≤ data.length ∧ IsHeader data offset) :
    MembersFit data offset ↔
      (¬ Skipped data offset → offset + 512 + sizeAt data offset ≤ data.length) ∧
        MembersFit data (afterMember data offset) := by
  have hnext : nextHeader data offset = some (afterMember data offset) := if_pos h
  rw [MembersFit, Scan.throughout_of_some hnext]
  exact and_congr_left' ⟨fun hfit => hfit h.1 h.2, fun hfit _ _ => hfit⟩

/-- Both parsers return, with files that lie in the input. -/
structure Parsed (data : List UInt8) (offset : ℕ) (files : List TarRange) : Prop where
  run : parseFrom data offset = some files
  plain : newFrom (data.drop offset) = some (files.map (TarRange.file data))
  inside : ∀ r ∈ files, r.Inside data

/-- Both parsers panic. -/
structure Panics (data : List UInt8) (offset : ℕ) : Prop where
  run : parseFrom data offset = none
  plain : newFrom (data.drop offset) = none

section
variable (hoffset : offset < 2 ^ 63 + 2 ^ 37)
include hoffset

/-- Where the loop stops, it gives no file. -/
theorem Parsed.stop (h : ¬ (offset + 512 ≤ data.length ∧ IsHeader data offset)) :
    Parsed data offset [] where
  run := by rw [parseFrom_eq hoffset, if_neg h]
  plain := by rw [newFrom_drop, if_neg h, List.map_nil]
  inside := nofun

variable (h : offset + 512 ≤ data.length ∧ IsHeader data offset)
include h

/-- A member that is skipped gives no file. -/
theorem Parsed.skip (hskip : Skipped data offset) {files : List TarRange}
    (hrest : Parsed data (afterMember data offset) files) : Parsed data offset files where
  run := by rw [parseFrom_eq hoffset, if_pos h, if_pos hskip, hrest.run]
  plain := by rw [newFrom_drop, if_pos h, if_pos hskip, hrest.plain]
  inside := hrest.inside

/-- A member that is kept gives its file. -/
theorem Parsed.keep (hskip : ¬ Skipped data offset)
    (hroom : offset + 512 + sizeAt data offset ≤ data.length) {files : List TarRange}
    (hrest : Parsed data (afterMember data offset) files) :
    Parsed data offset (rangeAt data offset :: files) where
  run := by
    rw [parseFrom_eq hoffset, if_pos h, if_neg hskip, if_pos hroom, hrest.run, Option.map_some]
  plain := by
    rw [newFrom_drop, if_pos h, if_neg hskip, if_pos hroom, hrest.plain, Option.map_some,
      List.map_cons]
  inside := List.forall_mem_cons.2 ⟨rangeAt_inside.2 hroom, hrest.inside⟩

/-- A panic behind a member that is skipped. -/
theorem Panics.skip (hskip : Skipped data offset) (hrest : Panics data (afterMember data offset)) :
    Panics data offset where
  run := by rw [parseFrom_eq hoffset, if_pos h, if_pos hskip, hrest.run]
  plain := by rw [newFrom_drop, if_pos h, if_pos hskip, hrest.plain]

/-- A panic behind a member that is kept. -/
theorem Panics.keep (hskip : ¬ Skipped data offset)
    (hroom : offset + 512 + sizeAt data offset ≤ data.length)
    (hrest : Panics data (afterMember data offset)) : Panics data offset where
  run := by
    rw [parseFrom_eq hoffset, if_pos h, if_neg hskip, if_pos hroom, hrest.run, Option.map_none]
  plain := by rw [newFrom_drop, if_pos h, if_neg hskip, if_pos hroom, hrest.plain, Option.map_none]

/-- The slice of a member that does not fit. -/
theorem Panics.here (hskip : ¬ Skipped data offset)
    (hroom : ¬ offset + 512 + sizeAt data offset ≤ data.length) : Panics data offset where
  run := by rw [parseFrom_eq hoffset, if_pos h, if_neg hskip, if_neg hroom]
  plain := by rw [newFrom_drop, if_pos h, if_neg hskip, if_neg hroom]

end

/-- The parsers return when the members fit, and panic when they do not. -/
theorem parseFrom_spec (hdata : data.length < 2 ^ 63) (offset n : ℕ)
    (hn : data.length - offset ≤ n) (hoffset : offset < 2 ^ 63 + 2 ^ 37) :
    (MembersFit data offset → ∃ files, Parsed data offset files) ∧
      (¬ MembersFit data offset → Panics data offset) := by
  induction n generalizing offset with
  | zero =>
    have hstop : ¬ (offset + 512 ≤ data.length ∧ IsHeader data offset) := fun h => by omega
    exact ⟨fun _ => ⟨[], .stop hoffset hstop⟩, fun h => absurd (membersFit_of_stop hstop) h⟩
  | succ n ih =>
    by_cases hturn : offset + 512 ≤ data.length ∧ IsHeader data offset
    · have hsize : sizeAt data offset < 8 ^ 12 := headerSize_lt _
      obtain ⟨hfit, hpanic⟩ := ih (afterMember data offset)
        (by rw [afterMember]; omega) (by rw [afterMember]; omega)
      rw [membersFit_next hturn]
      by_cases hskip : Skipped data offset
      · refine ⟨fun h => ?_, fun h => .skip hoffset hturn hskip (hpanic fun hrest => ?_)⟩
        · obtain ⟨files, hfiles⟩ := hfit h.2
          exact ⟨files, hfiles.skip hoffset hturn hskip⟩
        · exact h ⟨fun hkept => absurd hskip hkept, hrest⟩
      · by_cases hroom : offset + 512 + sizeAt data offset ≤ data.length
        · refine ⟨fun h => ?_, fun h => .keep hoffset hturn hskip hroom (hpanic fun hrest => ?_)⟩
          · obtain ⟨files, hfiles⟩ := hfit h.2
            exact ⟨_, hfiles.keep hoffset hturn hskip hroom⟩
          · exact h ⟨fun _ => hroom, hrest⟩
        · exact ⟨fun h => absurd (h.1 hskip) hroom, fun _ => .here hoffset hturn hskip hroom⟩
    · exact ⟨fun _ => ⟨[], .stop hoffset hturn⟩, fun h => absurd (membersFit_of_stop hturn) h⟩

end

/-- The parser with offsets and the one without agree. -/
theorem new_eq_parse (data : ByteSlice) :
    new data.bytes = (parse data).map (List.map (TarRange.file data.bytes)) := by
  obtain ⟨hfit, hpanic⟩ := parseFrom_spec data.length_lt 0 _ le_rfl (by decide)
  rw [new, parse, ← List.drop_zero (l := data.bytes)]
  by_cases h : MembersFit data.bytes 0
  · obtain ⟨files, hfiles⟩ := hfit h
    rw [hfiles.plain, List.drop_zero, hfiles.run, Option.map_some]
  · rw [(hpanic h).plain, List.drop_zero, (hpanic h).run, Option.map_none]

/-- The parser returns, with files that lie in the input, exactly when every member that it comes to
and does not leave out has its data there. -/
theorem parse_inside_iff (data : ByteSlice) :
    (∃ files, parse data = some files ∧ ∀ r ∈ files, r.Inside data.bytes) ↔
      MembersFit data.bytes 0 := by
  obtain ⟨hfit, hpanic⟩ := parseFrom_spec data.length_lt 0 _ le_rfl (by decide)
  constructor
  · rintro ⟨files, hrun, -⟩
    by_contra h
    cases (hpanic h).run.symm.trans hrun
  · intro h
    obtain ⟨files, hfiles⟩ := hfit h
    exact ⟨files, hfiles.run, hfiles.inside⟩

/-- An archive that ends behind the header of a file of one byte. -/
def truncated : ByteSlice where
  bytes := tinyHeader [0x61]
  length_lt := by
    rw [length_tinyHeader (by decide)]
    decide

/-- There the parser panics. -/
theorem parse_truncated : ¬ ∀ data : ByteSlice,
    ∃ files, parse data = some files ∧ ∀ r ∈ files, r.Inside data.bytes := by
  intro h
  obtain ⟨files, hrun, -⟩ := h truncated
  have hlen : truncated.bytes.length = 512 := length_tinyHeader (by decide)
  have hname : nameAt truncated.bytes 0 = ['a'] := by
    have hstored := headerName_eq (tinyMember [0x61] (by decide) (by decide))
    rw [nameAt, List.drop_zero]
    exact hstored.trans (by decide)
  have hsize : sizeAt truncated.bytes 0 = 1 := by
    rw [sizeAt, List.drop_zero]
    exact headerSize_of_octalField (tinyHeader_size (by decide))
  have hmagic : IsHeader truncated.bytes 0 := by
    have hsix : slice (tinyHeader [0x61]) 257 6 = ustar ++ [0] := tinyHeader_magic (by decide)
    have hfive := slice_slice (tinyHeader [0x61]) (show 0 + 5 ≤ 6 by decide) (o := 257)
    rw [hsix] at hfive
    exact hfive.symm
  have hkept : ¬ Skipped truncated.bytes 0 := by
    rw [Skipped, hname]
    decide
  rw [parse, parseFrom_eq (by decide), if_pos ⟨hlen.ge, hmagic⟩, if_neg hkept,
    if_neg (by rw [hsize, hlen]; decide)] at hrun
  cases hrun

end TarFileSystem

end RossOs
