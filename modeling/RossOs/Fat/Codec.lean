import RossOs.Fat.Names

/-!
# The codec of short names

`to_8_3` writes a name into the 11 bytes of a record and `decode_8_3` reads them back. A name comes
back, up to the case of its letters, exactly when it is `Plain`. In the other direction every
`ShortName`, an 11-byte field without padding inside its parts and without dots and small letters,
is the encoding of the name read from it.
-/

namespace RossOs

open ByteMem

namespace Fat

/-- A byte that a part of a short name may hold: in ASCII, no space, no dot, no small letter. -/
def IsNameByte (b : UInt8) : Prop := b < 0x80 ∧ b ≠ 0x20 ∧ b ≠ 0x2E ∧ ¬ (0x61 ≤ b ∧ b ≤ 0x7A)

instance (b : UInt8) : Decidable (IsNameByte b) := inferInstanceAs (Decidable (_ ∧ _))

/-- The two parts of a short name. -/
structure ShortName where
  base : List UInt8
  ext : List UInt8
  base_pos : 0 < base.length
  base_le : base.length ≤ 8
  ext_le : ext.length ≤ 3
  nameBytes : ∀ b ∈ base ++ ext, IsNameByte b

/-- The 11 bytes of a short name: each part padded with spaces. -/
def ShortName.raw (s : ShortName) : List UInt8 :=
  s.base ++ List.replicate (8 - s.base.length) 0x20 ++
    (s.ext ++ List.replicate (3 - s.ext.length) 0x20)

/-! ## Bytes of short names -/

/-- The character that `decode_8_3` makes of a byte. -/
def decodedChar (b : UInt8) : Char := asChar (toAsciiLowercase b)

/-- A decoded byte is its lower case. -/
theorem decodedChar_toNat (b : UInt8) : (decodedChar b).toNat = (toAsciiLowercase b).toNat :=
  asChar_toNat _

/-- Such a byte comes back from its character. -/
theorem toAsciiUppercase_toAsciiLowercase {b : UInt8} (h : IsNameByte b) :
    toAsciiUppercase (toAsciiLowercase b) = b := by
  revert h
  exact forall_byte (P := fun b => IsNameByte b → toAsciiUppercase (toAsciiLowercase b) = b)
    (by decide +kernel) b

/-- A decoded byte of a name is ASCII. -/
theorem decodedChar_ascii {b : UInt8} (h : IsNameByte b) : (decodedChar b).toNat < 0x80 := by
  rw [decodedChar_toNat]
  revert h
  exact forall_byte (P := fun b => IsNameByte b → (toAsciiLowercase b).toNat < 0x80)
    (by decide +kernel) b

/-- A decoded byte of a name is no dot. -/
theorem decodedChar_ne_dot {b : UInt8} (h : IsNameByte b) : decodedChar b ≠ '.' := by
  revert h
  exact forall_byte (P := fun b => IsNameByte b → decodedChar b ≠ '.') (by decide +kernel) b

section
variable {bs : List UInt8} (h : ∀ b ∈ bs, IsNameByte b)
include h

/-- The bytes of a decoded field are its lower case. -/
theorem utf8_map_decodedChar : utf8 (bs.map decodedChar) = bs.map toAsciiLowercase := by
  rw [utf8_of_ascii, List.map_map]
  · refine List.map_congr_left fun b _ => ?_
    rw [Function.comp_apply, decodedChar_toNat, UInt8.ofNat_toNat]
  · intro c hc
    obtain ⟨b, hb, rfl⟩ := List.mem_map.1 hc
    exact decodedChar_ascii (h b hb)

/-- A decoded field has no dot. -/
theorem dot_notMem_map_decodedChar : '.' ∉ bs.map decodedChar := by
  intro hmem
  obtain ⟨b, hb, hdot⟩ := List.mem_map.1 hmem
  exact decodedChar_ne_dot (h b hb) hdot

/-- The encoder makes the padded bytes of a part again. -/
theorem nameField_map_toAsciiLowercase (n : ℕ) :
    nameField n (bs.map toAsciiLowercase) = bs ++ List.replicate (n - bs.length) 0x20 := by
  have hmap : (bs.map toAsciiLowercase).map toAsciiUppercase = bs := by
    rw [List.map_map]
    conv_rhs => rw [← List.map_id bs]
    exact List.map_congr_left fun b hb => toAsciiUppercase_toAsciiLowercase (h b hb)
  rw [nameField, hmap, List.length_map]

/-- The decoder cuts off the padding of a part and nothing else. -/
theorem trimSpaces_padded (n : ℕ) : trimSpaces (bs ++ List.replicate n 0x20) = bs := by
  rw [trimSpaces_append_spaces]
  refine trimSpaces_eq_self fun hlast => ?_
  exact (h _ (List.mem_of_getLast? hlast)).2.1 rfl

end

/-! ## Round trips -/

section
variable {e raw : List UInt8} {name : String}

/-- A name comes back from a record with its 11 bytes exactly when it is plain. -/
theorem nameMatches_iff_of_to83 (h : to83 name = some raw) (he : slice e 0 11 = raw) :
    nameMatches e name = true ↔ Plain name := by
  have hraw := length_to83 h
  have hrec : slice e 0 11 = slice (newRecord raw) 0 11 := by
    rw [he, newRecord, List.append_assoc, slice, List.drop_zero, List.take_left' hraw]
  rw [← nameMatches_newRecord_iff h, nameMatches, nameMatches, decode83_congr hrec]

variable (s : ShortName)

/-- The name read from a short name. -/
theorem decode83_shortName (he : slice e 0 11 = s.raw) : (decode83 e).toList =
    s.base.map decodedChar ++ if s.ext = [] then [] else '.' :: s.ext.map decodedChar := by
  have hbase := fun b hb => s.nameBytes b (List.mem_append_left _ hb)
  have hext := fun b hb => s.nameBytes b (List.mem_append_right _ hb)
  have hpad : ∀ {bs : List UInt8} {n : ℕ}, bs.length ≤ n →
      (bs ++ List.replicate (n - bs.length) (0x20 : UInt8)).length = n := by
    intro bs n hn
    rw [List.length_append, List.length_replicate]
    omega
  have h8 : slice e 0 8 = s.base ++ List.replicate (8 - s.base.length) 0x20 := by
    rw [← slice_slice e (show 0 + 8 ≤ 11 by decide), he, ShortName.raw, slice, List.drop_zero,
      List.take_left' (hpad s.base_le)]
  have h3 : slice e 8 3 = s.ext ++ List.replicate (3 - s.ext.length) 0x20 := by
    have hin : slice (slice e 0 11) 8 3 = slice e (0 + 8) 3 := slice_slice e (by decide)
    rw [Nat.zero_add] at hin
    rw [← hin, he, ShortName.raw, slice, List.drop_left' (hpad s.base_le),
      List.take_of_length_le (hpad s.ext_le).le]
  rw [decode83, String.toList_ofList, h8, h3, trimSpaces_padded hbase, trimSpaces_padded hext]
  rfl

/-- The encoder gives the 11 bytes back from which a name was read. -/
theorem to83_decode83 (he : slice e 0 11 = s.raw) : to83 (decode83 e) = some s.raw := by
  have hbase := fun b hb => s.nameBytes b (List.mem_append_left _ hb)
  have hext := fun b hb => s.nameBytes b (List.mem_append_right _ hb)
  have hsplit : splitAtDot (decode83 e).toList =
      (s.base.map decodedChar, s.ext.map decodedChar) := by
    rw [decode83_shortName s he]
    split
    case isTrue hnil =>
      rw [List.append_nil, splitAtDot_of_notMem (dot_notMem_map_decodedChar hbase), hnil]
      rfl
    case isFalse =>
      obtain ⟨hsplit, hnodot⟩ := splitAtDot_of_mem
        (List.mem_append_right (s.base.map decodedChar) (List.mem_cons_self (a := '.')
          (l := s.ext.map decodedChar)))
      obtain ⟨h1, h2⟩ := append_cons_dot_inj hsplit (dot_notMem_map_decodedChar hext) hnodot
      exact Prod.ext h1.symm h2.symm
  have hfits : ¬ (utf8 (s.base.map decodedChar) = [] ∨ (utf8 (s.base.map decodedChar)).length > 8 ∨
      (utf8 (s.ext.map decodedChar)).length > 3) := by
    rw [utf8_map_decodedChar hbase, utf8_map_decodedChar hext, List.length_map, List.length_map,
      ← List.length_eq_zero_iff, List.length_map]
    have := s.base_pos
    have := s.base_le
    have := s.ext_le
    omega
  rw [to83, hsplit]
  simp only [if_neg hfits]
  rw [utf8_map_decodedChar hbase, utf8_map_decodedChar hext, nameField_map_toAsciiLowercase hbase,
    nameField_map_toAsciiLowercase hext]
  rfl

end

/-- The two round trips. A name comes back from a record with the 11 bytes that `to_8_3` gives for
it, up to case, exactly when it is plain; and `to_8_3` gives the 11 bytes of a short name for the
name that `decode_8_3` reads from them. -/
theorem name_codec (e : List UInt8) :
    (∀ name, to83 name = some (slice e 0 11) →
      (eqIgnoreAsciiCase (decode83 e) name = true ↔ Plain name)) ∧
    ∀ s : ShortName, slice e 0 11 = s.raw → to83 (decode83 e) = some s.raw :=
  ⟨fun _ h => nameMatches_iff_of_to83 h rfl, fun s he => to83_decode83 s he⟩

/-- `FOO     TXT`. -/
def fooTxt : ShortName where
  base := [0x46, 0x4F, 0x4F]
  ext := [0x54, 0x58, 0x54]
  base_pos := by decide
  base_le := by decide
  ext_le := by decide
  nameBytes := by decide +kernel

/-- The name `foo.txt` comes back from its record, and its record from the name. -/
theorem name_codec_fooTxt :
    (eqIgnoreAsciiCase (decode83 (newRecord fooTxt.raw)) "foo.txt" = true ↔ Plain "foo.txt") ∧
      to83 (decode83 (newRecord fooTxt.raw)) = some fooTxt.raw :=
  ⟨(name_codec _).1 "foo.txt" (by decide), (name_codec _).2 fooTxt (by decide)⟩

/-- A space before the dot does not come back. -/
example : (to83 "a .b").map (fun raw => decode83 (newRecord raw)) = some "a.b" := by decide

end Fat

end RossOs
