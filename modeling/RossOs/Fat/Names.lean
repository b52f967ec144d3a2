import RossOs.Fat.Create

/-!
# Names in a directory

A name goes through `to_8_3` into a record and comes back through `decode_8_3`. It comes back as it
was, up to the case of its letters, exactly when it is `Plain`: in ASCII, with no space at the end
of either part and no dot at its end. `create` compares the name it is given with decoded names and
so keeps the 11-byte names of a directory apart for these names only; `create_found_iff` says when
the new entry is found again and the names stay apart.
-/

namespace RossOs

open ByteMem Ahci

namespace Fat

/-! ## Bytes and characters -/

/-- A property of all bytes, number by number. -/
theorem forall_byte {P : UInt8 → Prop} (h : ∀ n < 256, P (UInt8.ofNat n)) (b : UInt8) : P b := by
  have hb := h b.toNat b.toNat_lt
  rwa [UInt8.ofNat_toNat] at hb

/-- Case does not matter once a byte is put in lower case. -/
theorem toAsciiLowercase_toAsciiUppercase (b : UInt8) :
    toAsciiLowercase (toAsciiUppercase b) = toAsciiLowercase b :=
  forall_byte (P := fun b => toAsciiLowercase (toAsciiUppercase b) = toAsciiLowercase b)
    (by decide +kernel) b

/-- Only a space is a space in upper case. -/
theorem toAsciiUppercase_eq_space (b : UInt8) : toAsciiUppercase b = 0x20 ↔ b = 0x20 :=
  forall_byte (P := fun b => toAsciiUppercase b = 0x20 ↔ b = 0x20) (by decide +kernel) b

/-- A byte of a decoded name, without regard to case. -/
def shownByte (b : UInt8) : Char := (asChar (toAsciiLowercase b)).toLower

/-- Only a space is shown as a space. -/
theorem shownByte_eq_space (b : UInt8) : shownByte b = ' ' ↔ b = 0x20 :=
  forall_byte (P := fun b => shownByte b = ' ' ↔ b = 0x20) (by decide +kernel) b

/-- Only a dot is shown as a dot. -/
theorem shownByte_eq_dot (b : UInt8) : shownByte b = '.' ↔ b = 0x2E :=
  forall_byte (P := fun b => shownByte b = '.' ↔ b = 0x2E) (by decide +kernel) b

/-- An ASCII character comes back from its byte. -/
theorem shownByte_ofNat {c : Char} (hc : c.toNat < 0x80) :
    shownByte (UInt8.ofNat c.toNat) = c.toLower := by
  have h : ∀ n < 0x80, shownByte (UInt8.ofNat n) = (Char.ofNat n).toLower := by decide
  rw [h _ hc, Char.ofNat_toNat]

/-- `Char.toLower` moves the letters `A` to `Z` only. -/
theorem toLower_toNat (c : Char) : c.toLower.toNat =
    if 65 ≤ c.toNat ∧ c.toNat ≤ 90 then c.toNat + 32 else c.toNat := by
  delta Char.toLower
  split
  case isTrue h =>
    have h1 : 65 ≤ c.toNat := UInt32.le_iff_toNat_le.1 h.1
    have h2 : c.toNat ≤ 90 := UInt32.le_iff_toNat_le.1 h.2
    rw [if_pos ⟨h1, h2⟩]
    show (c.val + ('a'.val - 'A'.val)).toNat = _
    rw [UInt32.toNat_add]
    have h3 : ('a'.val - 'A'.val).toNat = 32 := rfl
    have h4 : c.val.toNat = c.toNat := rfl
    omega
  case isFalse h =>
    rw [if_neg fun h' => h ⟨UInt32.le_iff_toNat_le.2 h'.1, UInt32.le_iff_toNat_le.2 h'.2⟩]

/-- A character below the letters is the lower case of itself only. -/
theorem toLower_eq_iff {c d : Char} (hd : d.toNat < 65) : c.toLower = d ↔ c = d := by
  have h := toLower_toNat c
  constructor
  · rintro rfl
    have hne : ¬ (65 ≤ c.toNat ∧ c.toNat ≤ 90) := fun hin => by
      rw [if_pos hin] at h
      omega
    rw [if_neg hne] at h
    exact Char.toNat_inj.1 h.symm
  · rintro rfl
    rw [if_neg (by omega)] at h
    exact Char.toNat_inj.1 h

/-! ## UTF-8 -/

section
variable {c : Char} {cs : List Char}

/-- An ASCII character is one byte. -/
theorem utf8EncodeChar_of_ascii (hc : c.toNat < 0x80) :
    String.utf8EncodeChar c = [UInt8.ofNat c.toNat] := if_pos (Nat.le_of_lt_succ hc)

/-- A character beyond ASCII takes several bytes, none of them in ASCII. -/
theorem utf8EncodeChar_of_not_ascii (hc : 0x80 ≤ c.toNat) :
    2 ≤ (String.utf8EncodeChar c).length ∧ ∀ b ∈ String.utf8EncodeChar c, 0x80 ≤ b.toNat := by
  have hbyte : ∀ n, 0x80 ≤ n → n < 256 → 0x80 ≤ (UInt8.ofNat n).toNat := fun n h1 h2 => by
    rw [UInt8.toNat_ofNat', Nat.mod_eq_of_lt h2]
    exact h1
  have hv : ¬ c.val.toNat ≤ 0x7f := Nat.not_le.2 hc
  rw [String.utf8EncodeChar, if_neg hv]
  split
  · refine ⟨le_rfl, ?_⟩
    simp only [List.forall_mem_cons]
    exact ⟨hbyte _ (by omega) (by omega), hbyte _ (by omega) (by omega), nofun⟩
  · split
    · refine ⟨by simp, ?_⟩
      simp only [List.forall_mem_cons]
      exact ⟨hbyte _ (by omega) (by omega), hbyte _ (by omega) (by omega),
        hbyte _ (by omega) (by omega), nofun⟩
    · refine ⟨by simp, ?_⟩
      simp only [List.forall_mem_cons]
      exact ⟨hbyte _ (by omega) (by omega), hbyte _ (by omega) (by omega),
        hbyte _ (by omega) (by omega), hbyte _ (by omega) (by omega), nofun⟩

/-- The bytes of a text, first character first. -/
theorem utf8_cons (c : Char) (cs : List Char) :
    utf8 (c :: cs) = String.utf8EncodeChar c ++ utf8 cs := List.flatMap_cons

/-- The bytes of a text, last character last. -/
theorem utf8_concat (cs : List Char) (c : Char) :
    utf8 (cs ++ [c]) = utf8 cs ++ String.utf8EncodeChar c := by
  rw [utf8, List.flatMap_append, List.flatMap_singleton]
  rfl

/-- The bytes of an ASCII text are its characters. -/
theorem utf8_of_ascii (h : ∀ c ∈ cs, c.toNat < 0x80) :
    utf8 cs = cs.map fun c => UInt8.ofNat c.toNat := by
  induction cs with
  | nil => rfl
  | cons c cs ih =>
    obtain ⟨hc, htail⟩ := List.forall_mem_cons.1 h
    rw [utf8_cons, utf8EncodeChar_of_ascii hc, ih htail]
    rfl

/-- Every character has a byte at least. -/
theorem length_le_utf8 (cs : List Char) : cs.length ≤ (utf8 cs).length := by
  induction cs with
  | nil => exact le_rfl
  | cons c cs ih =>
    have hpos := List.length_pos_of_ne_nil (String.utf8EncodeChar_ne_nil (c := c))
    rw [utf8_cons, List.length_append, List.length_cons]
    omega

/-- A byte for each character: all are ASCII. -/
theorem ascii_of_length_utf8 (h : (utf8 cs).length = cs.length) : ∀ c ∈ cs, c.toNat < 0x80 := by
  induction cs with
  | nil => exact nofun
  | cons c cs ih =>
    have hle := length_le_utf8 cs
    rw [utf8_cons, List.length_append, List.length_cons] at h
    by_cases hc : c.toNat < 0x80
    · rw [utf8EncodeChar_of_ascii hc, List.length_singleton] at h
      exact List.forall_mem_cons.2 ⟨hc, ih (by omega)⟩
    · have := (utf8EncodeChar_of_not_ascii (Nat.le_of_not_lt hc)).1
      omega

/-- Dots are bytes of their own. -/
theorem count_dot_utf8 (cs : List Char) : (utf8 cs).count 0x2E = cs.count '.' := by
  induction cs with
  | nil => rfl
  | cons c cs ih =>
    rw [utf8_cons, List.count_append, ih, List.count_cons]
    by_cases hc : c.toNat < 0x80
    · have hiff : ∀ n < 0x80,
          [UInt8.ofNat n].count 0x2E = if Char.ofNat n == '.' then 1 else 0 := by decide
      rw [utf8EncodeChar_of_ascii hc, hiff _ hc, Char.ofNat_toNat, Nat.add_comm]
    · have hbytes := (utf8EncodeChar_of_not_ascii (Nat.le_of_not_lt hc)).2
      rw [List.count_eq_zero_of_not_mem fun hmem => absurd (hbytes _ hmem) (by decide),
        Nat.zero_add, if_neg]
      · rfl
      · intro heq
        rw [eq_of_beq heq] at hc
        exact hc (by decide)

/-- An ASCII character at the end is a byte of its own. -/
theorem getLast?_utf8 {b : UInt8} (hb : b.toNat < 0x80) :
    (utf8 cs).getLast? = some b ↔ cs.getLast? = some (asChar b) := by
  induction cs using List.reverseRecOn with
  | nil => simp [utf8]
  | append_singleton cs c =>
    rw [utf8_concat, List.getLast?_append_of_ne_nil _ String.utf8EncodeChar_ne_nil,
      List.getLast?_concat]
    by_cases hc : c.toNat < 0x80
    · rw [utf8EncodeChar_of_ascii hc, List.getLast?_singleton, Option.some.injEq,
        Option.some.injEq]
      constructor
      · rintro rfl
        rw [asChar, UInt8.toNat_ofNat_of_lt' (hc.trans (by decide)), Char.ofNat_toNat]
      · rintro rfl
        rw [asChar_toNat, UInt8.ofNat_toNat]
    · refine iff_of_false (fun hlast => ?_) fun hsp => ?_
      · exact absurd ((utf8EncodeChar_of_not_ascii (Nat.le_of_not_lt hc)).2 _
          (List.mem_of_getLast? hlast)) (Nat.not_le_of_lt hb)
      · cases hsp
        exact hc (by rwa [asChar_toNat])

end

/-! ## A name in its record -/

section
variable {bs : List UInt8} {cs : List Char} {name : String} {raw : List UInt8}

/-- Trailing spaces do not matter once they are trimmed. -/
theorem trimSpaces_append_spaces (bs : List UInt8) (n : ℕ) :
    trimSpaces (bs ++ List.replicate n 0x20) = trimSpaces bs := by
  induction n with
  | zero => rw [List.replicate_zero, List.append_nil]
  | succ n ih =>
    rw [List.replicate_succ', ← List.append_assoc, trimSpaces, List.rdropWhile_concat_pos _ _ _ rfl]
    exact ih

/-- Upper case and trimming commute. -/
theorem trimSpaces_map_toAsciiUppercase (bs : List UInt8) :
    trimSpaces (bs.map toAsciiUppercase) = (trimSpaces bs).map toAsciiUppercase := by
  induction bs using List.reverseRecOn with
  | nil => rfl
  | append_singleton bs b ih =>
    have hiff := toAsciiUppercase_eq_space b
    rw [List.map_append, List.map_singleton, trimSpaces, trimSpaces]
    by_cases hb : b = 0x20
    · rw [List.rdropWhile_concat_pos _ _ _ (by simp [hiff.2 hb]),
        List.rdropWhile_concat_pos _ _ _ (by simp [hb])]
      exact ih
    · rw [List.rdropWhile_concat_neg _ _ _ (by simp [hiff, hb]),
        List.rdropWhile_concat_neg _ _ _ (by simp [hb]), List.map_append, List.map_singleton]

/-- What is trimmed off a name field is its padding. -/
theorem trimSpaces_nameField (n : ℕ) (bs : List UInt8) :
    trimSpaces (nameField n bs) = (trimSpaces bs).map toAsciiUppercase := by
  rw [nameField, trimSpaces_append_spaces, trimSpaces_map_toAsciiUppercase]

/-- Without a trailing space there is nothing to trim. -/
theorem trimSpaces_eq_self (h : bs.getLast? ≠ some 0x20) : trimSpaces bs = bs := by
  refine List.rdropWhile_eq_self_iff.2 fun hne hlast => h ?_
  rw [List.getLast?_eq_some_getLast hne, eq_of_beq hlast]

/-- Nothing trimmed ends in a space. -/
theorem getLast?_trimSpaces (bs : List UInt8) : (trimSpaces bs).getLast? ≠ some 0x20 := by
  intro hlast
  have hne : trimSpaces bs ≠ [] := fun h => by rw [h] at hlast; cases hlast
  rw [List.getLast?_eq_some_getLast hne] at hlast
  exact List.rdropWhile_last_not (· == (0x20 : UInt8)) bs hne (by
    rw [show (bs.rdropWhile (· == (0x20 : UInt8))).getLast hne = 0x20 from Option.some.inj hlast]
    rfl)

/-- What is shown of a part of a name, without regard to case. -/
def shown (cs : List Char) : List Char := (trimSpaces (utf8 cs)).map shownByte

/-- The two fields of an 8.3 name, each of its length. -/
theorem to83_eq (h : to83 name = some raw) :
    raw = nameField 8 (utf8 (splitAtDot name.toList).1) ++
        nameField 3 (utf8 (splitAtDot name.toList).2) ∧
      (nameField 8 (utf8 (splitAtDot name.toList).1)).length = 8 ∧
      (nameField 3 (utf8 (splitAtDot name.toList).2)).length = 3 := by
  rw [to83] at h
  split at h
  case isTrue => cases h
  case isFalse hfit =>
    rw [not_or, not_or] at hfit
    exact ⟨(Option.some.inj h).symm, length_nameField (Nat.le_of_not_lt hfit.2.1),
      length_nameField (Nat.le_of_not_lt hfit.2.2)⟩

/-- What is shown of a name's record. -/
theorem decode83_newRecord (h : to83 name = some raw) :
    (decode83 (newRecord raw)).toList.map Char.toLower =
      shown (splitAtDot name.toList).1 ++ if trimSpaces (utf8 (splitAtDot name.toList).2) = []
        then [] else '.' :: shown (splitAtDot name.toList).2 := by
  obtain ⟨rfl, h8, h3⟩ := to83_eq h
  have hslice8 : ∀ {xs ys : List UInt8}, xs.length = 8 → slice (newRecord (xs ++ ys)) 0 8 = xs :=
    fun hx => by rw [slice, List.drop_zero, newRecord, List.append_assoc, List.append_assoc,
      List.take_left' hx]
  have hslice3 : ∀ {xs ys : List UInt8}, xs.length = 8 → ys.length = 3 →
      slice (newRecord (xs ++ ys)) 8 3 = ys := fun hx hy => by
    rw [slice, newRecord, List.append_assoc, List.append_assoc, List.drop_left' hx,
      List.take_left' hy]
  have hshow : ∀ bs : List UInt8, (bs.map toAsciiUppercase).map
      (Char.toLower ∘ asChar ∘ toAsciiLowercase) = bs.map shownByte := fun bs => by
    rw [List.map_map]
    refine List.map_congr_left fun b _ => ?_
    rw [Function.comp_apply, Function.comp_apply, Function.comp_apply,
      toAsciiLowercase_toAsciiUppercase]
    rfl
  rw [decode83, String.toList_ofList, hslice8 h8, hslice3 h8 h3, trimSpaces_nameField,
    trimSpaces_nameField, List.map_append, List.map_map, hshow]
  refine congrArg (_ ++ ·) ?_
  by_cases hext : trimSpaces (utf8 (splitAtDot name.toList).2) = []
  · rw [if_pos hext, if_pos (by rw [hext]; rfl)]
    rfl
  · rw [if_neg hext, if_neg fun hnil => hext (List.map_eq_nil_iff.1 hnil), List.map_cons,
      List.map_map, hshow]
    rfl

/-- A part of a name is shown as it is exactly when it is in ASCII and does not end with a space. -/
theorem shown_eq_iff : shown cs = cs.map Char.toLower ↔
    (∀ c ∈ cs, c.toNat < 0x80) ∧ cs.getLast? ≠ some ' ' := by
  constructor
  · intro h
    have hlast : cs.getLast? ≠ some ' ' := by
      intro hsp
      have hmap := congrArg List.getLast? h
      rw [shown, List.getLast?_map, List.getLast?_map, hsp] at hmap
      obtain ⟨b, hb, hbsp⟩ := Option.map_eq_some_iff.1 hmap
      rw [(shownByte_eq_space b).1 (hbsp.trans (by decide))] at hb
      exact getLast?_trimSpaces _ hb
    have hlen := congrArg List.length h
    rw [shown, trimSpaces_eq_self (mt (getLast?_utf8 (b := 0x20) (by decide)).1 hlast),
      List.length_map, List.length_map] at hlen
    exact ⟨ascii_of_length_utf8 hlen, hlast⟩
  · rintro ⟨hascii, hlast⟩
    rw [shown, trimSpaces_eq_self (mt (getLast?_utf8 (b := 0x20) (by decide)).1 hlast),
      utf8_of_ascii hascii, List.map_map]
    exact List.map_congr_left fun c hc => shownByte_ofNat (hascii c hc)

/-- A name without a dot has no extension. -/
theorem splitAtDot_of_notMem (h : '.' ∉ cs) : splitAtDot cs = (cs, []) := if_neg h

/-- A list at the last `a` in it. -/
theorem rsplit_of_mem {α : Type} [DecidableEq α] {a : α} {l : List α} (h : a ∈ l) :
    l = (l.rdropWhile (· != a)).dropLast ++ a :: l.rtakeWhile (· != a) ∧
      a ∉ l.rtakeWhile (· != a) := by
  have hne : l.rdropWhile (· != a) ≠ [] := by
    intro hnil
    simpa using List.rdropWhile_eq_nil_iff.1 hnil a h
  have hlast : (l.rdropWhile (· != a)).getLast hne = a := by
    have := List.rdropWhile_last_not (· != a) l hne
    simpa using this
  constructor
  · have hsplit := List.rdropWhile_append_rtakeWhile (p := (· != a)) (l := l)
    have hconcat := List.dropLast_append_getLast hne
    rw [hlast] at hconcat
    rw [← List.singleton_append, ← List.append_assoc, hconcat, hsplit]
  · intro hmem
    simpa using List.mem_rtakeWhile_imp hmem

/-- A name with a dot is its two parts and the last dot between them. -/
theorem splitAtDot_of_mem (h : '.' ∈ cs) :
    cs = (splitAtDot cs).1 ++ '.' :: (splitAtDot cs).2 ∧ '.' ∉ (splitAtDot cs).2 := by
  rw [splitAtDot, if_pos h]
  exact rsplit_of_mem h

/-- The name is in ASCII, the part before its last dot does not end with a space, and the part
after it, if there is a dot, is not empty and does not end with a space. -/
structure Plain (name : String) : Prop where
  ascii : ∀ c ∈ name.toList, c.toNat < 0x80
  base : (splitAtDot name.toList).1.getLast? ≠ some ' '
  ext : '.' ∈ name.toList →
    (splitAtDot name.toList).2 ≠ [] ∧ (splitAtDot name.toList).2.getLast? ≠ some ' '

/-- No dot is shown of a part without dots. -/
theorem dot_notMem_shown (h : '.' ∉ cs) : '.' ∉ shown cs := by
  intro hmem
  obtain ⟨b, hb, hdot⟩ := List.mem_map.1 hmem
  rw [(shownByte_eq_dot b).1 hdot] at hb
  have hcount := count_dot_utf8 cs
  rw [List.count_eq_zero_of_not_mem h] at hcount
  exact List.count_eq_zero.1 hcount ((List.rdropWhile_prefix _ _).subset hb)

/-- Showing a text adds no dots. -/
theorem count_dot_shown_le (cs : List Char) : (shown cs).count '.' ≤ cs.count '.' := by
  have hle : (trimSpaces (utf8 cs)).count 0x2E ≤ (utf8 cs).count 0x2E :=
    (List.rdropWhile_prefix _ _).sublist.count_le _
  have hmap : (shown cs).count '.' = (trimSpaces (utf8 cs)).count 0x2E := by
    rw [shown, List.count_eq_countP, List.countP_map, List.count_eq_countP]
    refine List.countP_congr fun b _ => ?_
    rw [Function.comp_apply, beq_iff_eq, beq_iff_eq, shownByte_eq_dot]
  rw [hmap, ← count_dot_utf8]
  exact hle

/-- Lower case keeps the dots. -/
theorem count_dot_map_toLower (cs : List Char) :
    (cs.map Char.toLower).count '.' = cs.count '.' := by
  rw [List.count_eq_countP, List.countP_map, List.count_eq_countP]
  refine List.countP_congr fun c _ => ?_
  rw [Function.comp_apply, beq_iff_eq, beq_iff_eq, toLower_eq_iff (by decide)]

/-- Lists with one dot more are split at the last one. -/
theorem append_cons_dot_inj {a b c d : List Char} (h : a ++ '.' :: b = c ++ '.' :: d) (hb : '.' ∉ b)
    (hd : '.' ∉ d) : a = c ∧ b = d := by
  have key : ∀ {x y : List Char}, '.' ∉ y → (x ++ '.' :: y).rtakeWhile (· != '.') = y := by
    intro x y hy
    rw [List.rtakeWhile, List.reverse_append, List.reverse_cons, List.append_assoc,
      List.takeWhile_append_of_pos, List.singleton_append, List.takeWhile_cons_of_neg (by decide),
      List.append_nil, List.reverse_reverse]
    intro z hz
    have hzne : z ≠ '.' := fun hzd => hy (hzd ▸ List.mem_reverse.1 hz)
    simpa using hzne
  have hbd : b = d := by rw [← key hb, h, key hd]
  subst hbd
  exact ⟨List.append_cancel_right h, rfl⟩

/-- Two parts with a dot between them are shown as they are written, but for the case, exactly when
both are plain and the second one is not empty. -/
theorem shown_append_iff (base : List Char) {ext : List Char} (hext : '.' ∉ ext) :
    (shown base ++ if trimSpaces (utf8 ext) = [] then [] else '.' :: shown ext) =
        (base ++ '.' :: ext).map Char.toLower ↔
      (∀ c ∈ base ++ '.' :: ext, c.toNat < 0x80) ∧ base.getLast? ≠ some ' ' ∧ ext ≠ [] ∧
        ext.getLast? ≠ some ' ' := by
  have hextLower : '.' ∉ ext.map Char.toLower := by
    rw [← List.count_eq_zero, count_dot_map_toLower]
    exact List.count_eq_zero_of_not_mem hext
  have hlower : (base ++ '.' :: ext).map Char.toLower =
      base.map Char.toLower ++ '.' :: ext.map Char.toLower := by
    rw [List.map_append, List.map_cons]
    rfl
  rw [hlower]
  constructor
  · intro heq
    by_cases hnil : trimSpaces (utf8 ext) = []
    · -- the dot of the name would have to come from the base
      rw [if_pos hnil, List.append_nil] at heq
      have hcount := congrArg (List.count '.') heq
      have hle := count_dot_shown_le base
      rw [List.count_append, List.count_cons_self, count_dot_map_toLower] at hcount
      omega
    · rw [if_neg hnil] at heq
      obtain ⟨h1, h2⟩ := append_cons_dot_inj heq (dot_notMem_shown hext) hextLower
      obtain ⟨hascii1, hlast1⟩ := shown_eq_iff.1 h1
      obtain ⟨hascii2, hlast2⟩ := shown_eq_iff.1 h2
      refine ⟨fun c hc => ?_, hlast1, ?_, hlast2⟩
      · rcases List.mem_append.1 hc with hc | hc
        · exact hascii1 c hc
        · rcases List.mem_cons.1 hc with rfl | hc
          · decide
          · exact hascii2 c hc
      · rintro rfl
        exact hnil rfl
  · rintro ⟨hascii, hlast1, hne, hlast2⟩
    have h1 := shown_eq_iff.2 ⟨fun c hc => hascii c (List.mem_append_left _ hc), hlast1⟩
    have h2 := shown_eq_iff.2
      ⟨fun c hc => hascii c (List.mem_append_right _ (List.mem_cons_of_mem _ hc)), hlast2⟩
    rw [h1, if_neg, h2]
    intro hnil
    rw [shown, hnil] at h2
    exact hne (List.map_eq_nil_iff.1 h2.symm)

/-- A name comes back from its record exactly when it is plain. -/
theorem nameMatches_newRecord_iff (h : to83 name = some raw) :
    nameMatches (newRecord raw) name = true ↔ Plain name := by
  rw [nameMatches, eqIgnoreAsciiCase, beq_iff_eq, decode83_newRecord h]
  by_cases hdot : '.' ∈ name.toList
  · obtain ⟨hname, hext⟩ := splitAtDot_of_mem hdot
    have hshown := shown_append_iff (splitAtDot name.toList).1 hext
    rw [← hname] at hshown
    rw [hshown]
    constructor
    · rintro ⟨hascii, hlast1, hparts⟩
      exact ⟨hascii, hlast1, fun _ => hparts⟩
    · intro hplain
      exact ⟨hplain.ascii, hplain.base, hplain.ext hdot⟩
  · have hnodot := hdot
    rw [splitAtDot_of_notMem hdot]
    rw [show trimSpaces (utf8 []) = [] from rfl, if_pos rfl, List.append_nil, shown_eq_iff]
    refine ⟨fun hplain => ⟨hplain.1, ?_, fun hmem => absurd hmem hnodot⟩, fun hplain => ?_⟩
    · rw [splitAtDot_of_notMem hdot]
      exact hplain.2
    · have hbase := hplain.base
      rw [splitAtDot_of_notMem hdot] at hbase
      exact ⟨hplain.ascii, hbase⟩

end

/-! ## The names of a directory -/

/-- The 11-byte name of an entry. -/
def rawName (e : DirEntry) : List UInt8 := slice e.bytes 0 11

/-- No two live entries have the same 11-byte name. -/
def UniqueNames (l : List DirEntry) : Prop := ((live l).map rawName).Nodup

/-- The entry just made is found under the name it was made for, and names are still unique. -/
structure FoundAgain (fs : Fat32Fs) (d' : Disk) (node : Fat32Node) (name : String)
    (n : Fat32Node) : Prop where
  found : Finds fs d' node name n
  empty : n.isDir = false ∧ n.firstCluster = 0 ∧ n.size = 0
  unique : ∀ cs', DirChain fs d' node.firstCluster cs' → UniqueNames (dirSlots fs d' cs')

/-- The directory has a cluster, the name is plain and does not start with a zero byte, and when the
new record takes the place of an end mark in the last slot of a cluster, the entries after that mark
have names of their own. -/
def NameKept (fs : Fat32Fs) (d : Disk) (cs : List ℕ) (name : String) (raw : List UInt8) : Prop :=
  cs ≠ [] ∧ Plain name ∧ raw.getD 0 0 ≠ 0x00 ∧
  match (dirSlots fs d cs).dropWhile (!·.isFree) with
  | [] => True
  | e :: post => e.isEnd = true → fs.clusterSizeBytes < e.off + 64 →
    ((live ((dirSlots fs d cs).takeWhile (!·.isFree)) ++ live post).map rawName).Nodup ∧
      raw ∉ (live post).map rawName

section
variable {fs : Fat32Fs} {d d' : Disk} {node n : Fat32Node} {cs cs' : List ℕ} {p off fuel : ℕ}
  {name : String} {raw : List UInt8} {pre post' : List DirEntry}

/-- The name in a new record is the one it was made with. -/
theorem rawName_newRecord (p off : ℕ) (hraw : raw.length = 11) :
    rawName ⟨newRecord raw, p, off⟩ = raw := by
  rw [rawName, slice, List.drop_zero, newRecord, List.append_assoc, List.take_left' hraw]

/-- The decoded name depends on the 11 bytes only. -/
theorem decode83_congr {e e' : List UInt8} (h : slice e 0 11 = slice e' 0 11) :
    decode83 e = decode83 e' := by
  have hbase : ∀ e : List UInt8, slice (slice e 0 11) 0 8 = slice e 0 8 := fun e =>
    slice_slice e (by decide : 0 + 8 ≤ 11)
  have hext : ∀ e : List UInt8, slice (slice e 0 11) 8 3 = slice e 8 3 := fun e => by
    rw [slice_slice e (by decide : 8 + 3 ≤ 11), Nat.zero_add]
  rw [decode83, decode83, ← hbase e, ← hext e, ← hbase e', ← hext e', h]

/-- A plain name does not start with the mark of a deleted entry. -/
theorem Plain.getD_ne (h : Plain name) (hname : to83 name = some raw) : raw.getD 0 0 ≠ 0xE5 := by
  intro hE5
  have hrec : (newRecord raw).getD 0 0 = 0xE5 :=
    (b0_newRecord 0 0 (length_to83 hname)).trans hE5
  have hmatch : (decode83 (newRecord raw)).toList.map Char.toLower =
      name.toList.map Char.toLower := beq_iff_eq.1 ((nameMatches_newRecord_iff hname).2 h)
  have hhead := congrArg List.head? hmatch
  rw [List.head?_map, head?_decode83_deleted hrec, List.head?_map] at hhead
  obtain ⟨c, hc, hlow⟩ := Option.map_eq_some_iff.1 hhead.symm
  have hascii := h.ascii c (List.mem_of_head? hc)
  have hnat := toLower_toNat c
  have hE5nat : (asChar 0xE5).toLower.toNat = 229 := by decide
  rw [hlow, hE5nat] at hnat
  split at hnat
  · omega
  · omega

/-- The new entry is found under its name exactly when it is visible and its name is plain. -/
theorem finds_new_iff (h' : Readable fs d' node cs') (hname : to83 name = some raw)
    (hpre : ∀ x ∈ pre, x.isFree = false) (hdup : ∀ x ∈ live pre, nameMatches x.bytes name = false)
    (hnew : dirSlots fs d' cs' = pre ++ ⟨newRecord raw, p, off⟩ :: post')
    (hapart : ∀ x ∈ live post', x.cluster ≠ p) :
    Finds fs d' node name (.file 0 0 p off) ↔ Plain name ∧ raw.getD 0 0 ≠ 0x00 := by
  have hraw := length_to83 hname
  have hb := b0_newRecord p off hraw
  have hlook : lookup (dirSlots fs d' cs') name =
      (live (⟨newRecord raw, p, off⟩ :: post')).find? fun e => nameMatches e.bytes name := by
    rw [lookup, hnew, live_append_of_not_free hpre, List.find?_append, List.find?_eq_none.2,
      Option.none_or]
    intro x hx hmatch
    rw [hdup x hx] at hmatch
    cases hmatch
  -- no other entry has the place of the new one
  have hother : ∀ {l : List DirEntry}, (∀ x ∈ l, x.cluster ≠ p) → ∀ e,
      l.find? (fun e => nameMatches e.bytes name) = some e → nodeOf e ≠ .file 0 0 p off := by
    intro l hl e he hnode
    have hcluster := congrArg Fat32Node.parentCluster hnode
    rw [parentCluster_nodeOf] at hcluster
    exact hl e (List.mem_of_find?_eq_some he) hcluster
  rw [finds_iff h'.fits h'.chain h'.isDir, hlook]
  constructor
  · rintro ⟨e, he, hnode⟩
    by_cases h0 : raw.getD 0 0 = 0x00
    · rw [live_cons_of_isEnd (DirEntry.isEnd_iff.2 (hb.trans h0))] at he
      cases he
    by_cases hE5 : raw.getD 0 0 = 0xE5
    · rw [live_cons_of_isFree (DirEntry.isFree_iff.2 (.inr (hb.trans hE5))), if_neg] at he
      · exact absurd hnode (hother hapart e he)
      · rw [DirEntry.isEnd_iff, hb]
        exact h0
    · rw [live_cons_newRecord hraw h0 hE5] at he
      cases hmatch : nameMatches (newRecord raw) name with
      | true => exact ⟨(nameMatches_newRecord_iff hname).1 hmatch, h0⟩
      | false =>
        have hskip : ¬ nameMatches (DirEntry.mk (newRecord raw) p off).bytes name = true :=
          Bool.eq_false_iff.1 hmatch
        rw [List.find?_cons_of_neg (p := fun e : DirEntry => nameMatches e.bytes name) hskip] at he
        exact absurd hnode (hother hapart e he)
  · rintro ⟨hplain, h0⟩
    refine ⟨_, ?_, nodeOf_newRecord p off hraw⟩
    rw [live_cons_newRecord hraw h0 (hplain.getD_ne hname)]
    exact List.find?_cons_of_pos (p := fun e : DirEntry => nameMatches e.bytes name)
      ((nameMatches_newRecord_iff hname).2 hplain)

/-- What is live after the new record is in other clusters. -/
theorem live_apart_of_post {e : DirEntry} {post : List DirEntry}
    (hpost : if e.off + 64 ≤ fs.clusterSizeBytes then live post' = []
      else post' = post ∧ ∀ x ∈ post, x.cluster ≠ e.cluster) :
    ∀ x ∈ live post', x.cluster ≠ e.cluster := by
  intro x hx
  split at hpost
  · rw [hpost] at hx
    cases hx
  · rw [hpost.1] at hx
    exact hpost.2 x (mem_live hx).1

/-- A directory that can be read has one chain. -/
theorem Readable.chain_unique (h : Readable fs d node cs)
    (h' : DirChain fs d node.firstCluster cs') : cs' = cs := by
  rcases h.chain with ⟨hc, rfl⟩ | hchain
  · rcases h' with ⟨-, rfl⟩ | hchain'
    · rfl
    · exact absurd (hchain'.mem_in _ hchain'.head_mem).1 (Nat.not_le.2 hc)
  · rcases h' with ⟨hc, -⟩ | hchain'
    · exact absurd (hchain.mem_in _ hchain.head_mem).1 (Nat.not_le.2 hc)
    · exact hchain'.unique h.fits hchain

/-- An entry with the 11 bytes of a plain name has the name. -/
theorem Plain.matches_of_rawName (hplain : Plain name) (hname : to83 name = some raw)
    {x : DirEntry} (hx : rawName x = raw) : nameMatches x.bytes name = true := by
  have hdecode : decode83 x.bytes = decode83 (newRecord raw) :=
    decode83_congr (hx.trans (rawName_newRecord 0 0 (length_to83 hname)).symm)
  rw [nameMatches, hdecode]
  exact (nameMatches_newRecord_iff hname).2 hplain

/-- With the new record the names are still different exactly when no record behind it has its
name. -/
theorem nodup_rawName_iff {l q : List DirEntry} (hname : to83 name = some raw) (hplain : Plain name)
    (hdup : ∀ x ∈ l, nameMatches x.bytes name = false) :
    ((l ++ ⟨newRecord raw, p, off⟩ :: q).map rawName).Nodup ↔
      ((l ++ q).map rawName).Nodup ∧ raw ∉ q.map rawName := by
  have hnot : raw ∉ l.map rawName := by
    intro hmem
    obtain ⟨x, hx, hxraw⟩ := List.mem_map.1 hmem
    exact Bool.noConfusion ((hplain.matches_of_rawName hname hxraw).symm.trans (hdup x hx))
  rw [List.map_append, List.map_cons, rawName_newRecord _ _ (length_to83 hname), List.nodup_middle,
    List.nodup_cons, List.mem_append, not_or, ← List.map_append]
  exact ⟨fun h => ⟨h.2, h.1.2⟩, fun h => ⟨⟨hnot, h.2⟩, h.1⟩⟩

/-- The names after the record was put into the first free slot `e`. -/
theorem uniqueNames_slot_iff {e : DirEntry} {pre post post' : List DirEntry}
    (hname : to83 name = some raw) (hplain : Plain name) (h0 : raw.getD 0 0 ≠ 0x00)
    (hunique : UniqueNames (dirSlots fs d cs))
    (hdup : ∀ x ∈ live (dirSlots fs d cs), nameMatches x.bytes name = false)
    (hpre : ∀ x ∈ pre, x.isFree = false)
    (hlive : live (dirSlots fs d cs) = live pre ++ if e.isEnd then [] else live post)
    (hnew : dirSlots fs d' cs = pre ++ ⟨newRecord raw, p, off⟩ :: post')
    (hpost : if e.off + 64 ≤ fs.clusterSizeBytes then live post' = []
      else post' = post ∧ ∀ x ∈ post, x.cluster ≠ e.cluster) :
    UniqueNames (dirSlots fs d' cs) ↔ (e.isEnd = true → fs.clusterSizeBytes < e.off + 64 →
      ((live pre ++ live post).map rawName).Nodup ∧ raw ∉ (live post).map rawName) := by
  have hdupPre : ∀ x ∈ live pre, nameMatches x.bytes name = false := fun x hx =>
    hdup x (hlive ▸ List.mem_append_left _ hx)
  rw [UniqueNames, hnew, live_append_of_not_free hpre, live_cons_newRecord (length_to83 hname) h0
    (hplain.getD_ne hname), nodup_rawName_iff hname hplain hdupPre]
  rw [UniqueNames, hlive] at hunique
  split at hpost
  case isTrue hin =>
    rw [hpost, List.append_nil]
    refine iff_of_true ⟨?_, nofun⟩ fun _ hlt => absurd hin (Nat.not_le.2 hlt)
    exact List.Nodup.of_append_left (List.map_append ▸ hunique)
  case isFalse hin =>
    obtain ⟨rfl, -⟩ := hpost
    cases hend : e.isEnd with
    | true => exact ⟨fun h _ _ => h, fun h => h rfl (Nat.lt_of_not_le hin)⟩
    | false =>
      rw [hend, if_neg Bool.false_ne_true] at hunique hlive
      refine iff_of_true ⟨hunique, fun hmem => ?_⟩ nofun
      obtain ⟨x, hx, hxraw⟩ := List.mem_map.1 hmem
      exact Bool.noConfusion ((hplain.matches_of_rawName hname hxraw).symm.trans
        (hdup x (hlive ▸ List.mem_append_right _ hx)))

/-- A created entry is found again, with the names still unique, exactly when `NameKept` held
before. -/
theorem create_found_iff (hfits : fs.Fits d.capacity)
    (hchain : DirChain fs d node.firstCluster cs) (hname : to83 name = some raw)
    (hunique : UniqueNames (dirSlots fs d cs)) (hrun : node.create fs fuel name d = .ok n d') :
    FoundAgain fs d' node name n ↔ NameKept fs d cs name raw := by
  obtain ⟨raw', p, off, d₁, hcreated⟩ := (create_sat hfits hchain).of_ok hrun
  obtain rfl : raw = raw' := Option.some.inj (hname.symm.trans hcreated.name83)
  have hraw := length_to83 hname
  have hdup : ∀ x ∈ live (dirSlots fs d cs), nameMatches x.bytes name = false := fun x hx =>
    Bool.eq_false_of_not_eq_true (List.find?_eq_none.1 hcreated.noDup x hx)
  rw [hcreated.node_eq]
  cases hcreated.shows hfits hchain with
  | nowhere hcs h' =>
    subst hcs
    refine iff_of_false (fun hfound => ?_) fun hkeep => hkeep.1 rfl
    obtain ⟨e, he, -⟩ := (finds_iff h'.fits h'.chain h'.isDir).1 hfound.found
    cases he
  | @slot e pre post post' hne h' hold hpre he hnew hp hoff hpost =>
    obtain ⟨hdrop, htake⟩ := dropWhile_takeWhile_of_first post hpre he
    have hlive : live (dirSlots fs d cs) = live pre ++ if e.isEnd then [] else live post := by
      rw [hold, live_append_of_not_free hpre, live_cons_of_isFree he]
    have hapart : ∀ x ∈ live post', x.cluster ≠ p := fun x hx hxp =>
      live_apart_of_post hpost x hx (hxp.trans hp)
    have hfinds := finds_new_iff h' hname hpre
      (fun x hx => hdup x (hlive ▸ List.mem_append_left _ hx)) hnew hapart
    rw [NameKept, hold, hdrop, htake]
    constructor
    · intro hfound
      obtain ⟨hplain, h0⟩ := hfinds.1 hfound.found
      exact ⟨hne, hplain, h0, (uniqueNames_slot_iff hname hplain h0 hunique hdup hpre hlive hnew
        hpost).1 (hfound.unique cs h'.chain)⟩
    · rintro ⟨-, hplain, h0, hcond⟩
      refine ⟨hfinds.2 ⟨hplain, h0⟩, ⟨rfl, rfl, rfl⟩, fun cs' hcs' => ?_⟩
      rw [h'.chain_unique hcs']
      exact (uniqueNames_slot_iff hname hplain h0 hunique hdup hpre hlive hnew hpost).2 hcond
  | grown hne h' hpre hnew hpost =>
    rw [NameKept, List.dropWhile_eq_nil_iff.2 fun x hx => by rw [hpre x hx]; rfl]
    have hfinds := finds_new_iff h' hname hpre hdup hnew (by rw [hpost]; exact nofun)
    constructor
    · intro hfound
      obtain ⟨hplain, h0⟩ := hfinds.1 hfound.found
      exact ⟨hne, hplain, h0, trivial⟩
    · rintro ⟨-, hplain, h0, -⟩
      refine ⟨hfinds.2 ⟨hplain, h0⟩, ⟨rfl, rfl, rfl⟩, fun cs' hcs' => ?_⟩
      rw [h'.chain_unique hcs', UniqueNames, hnew, live_append_of_not_free hpre,
        live_cons_newRecord hraw h0 (hplain.getD_ne hname), nodup_rawName_iff hname hplain hdup,
        hpost, List.append_nil]
      exact ⟨hunique, nofun⟩

end

/-- In the root directory with `b` and a deleted entry the file is found again. -/
theorem create_found_used : ∃ n d',
    smallFs.root.create smallFs 1 "a" (rootDisk usedRecords) = .ok n d' ∧
      FoundAgain smallFs d' smallFs.root "a" n := by
  have hlen := usedRecords_rows
  have hread := rootDisk_readable hlen
  have hslots := dirSlots_rootDisk hlen
  rcases create_run 1 hread.fits hread.chain hread.isDir
    (show to83 "a" = some (oneLetter 0x41) by decide) (by rw [hslots]; decide) with
    ⟨n, d', p, off, d₁, hrun, -⟩ | ⟨hnone, -⟩ | ⟨hlt, -⟩
  · refine ⟨n, d', hrun, (create_found_iff hread.fits hread.chain
      (show to83 "a" = some (oneLetter 0x41) by decide) (by rw [UniqueNames, hslots]; decide)
      hrun).2 ?_⟩
    rw [NameKept, hslots]
    have hplain : Plain "a" := by
      refine ⟨?_, by decide, fun h => absurd h (by decide)⟩
      rw [show "a".toList = ['a'] by decide]
      exact List.forall_mem_singleton.2 (by decide)
    exact ⟨by decide, hplain, by decide, fun _ hlt => absurd hlt (by decide)⟩
  · rw [hslots] at hnone
    exact absurd hnone (by decide)
  · exact absurd hlt (by decide)

/-- With `b` there, `create` makes a second entry of that name for `b.`, which it cannot find. -/
theorem create_not_found : UniqueNames (dirSlots smallFs
      (rootDisk [record (oneLetter 0x42) 0x20 0 0]) [2]) ∧
    ∃ n d', smallFs.root.create smallFs 1 "b."
      (rootDisk [record (oneLetter 0x42) 0x20 0 0]) = .ok n d' ∧
      ¬ FoundAgain smallFs d' smallFs.root "b." n := by
  have hlen := length_smallRows [record (oneLetter 0x42) 0x20 0 0] (by decide)
    (by decide)
  have hread := rootDisk_readable hlen
  have hslots := dirSlots_rootDisk hlen
  have hname : to83 "b." = some (oneLetter 0x42) := by decide
  refine ⟨by rw [UniqueNames, hslots]; decide, ?_⟩
  rcases create_run 1 hread.fits hread.chain hread.isDir hname
    (by rw [hslots]; decide) with
    ⟨n, d', p, off, d₁, hrun, hcreated⟩ | ⟨hnone, -⟩ | ⟨hlt, -⟩
  · refine ⟨n, d', hrun, fun hfound => ?_⟩
    cases hcreated.shows hread.fits hread.chain with
    | nowhere hcs => cases hcs
    | grown _ _ hpre =>
      have hnone := List.find?_eq_none.2 fun x hx => Bool.eq_false_iff.1 (hpre x hx)
      rw [hslots] at hnone
      exact absurd hnone (by decide)
    | @slot e pre post post' hne h' hold hpre he hnew hp hoff hpost =>
      have hdup : ∀ x ∈ live pre, nameMatches x.bytes "b." = false := fun x hx =>
        Bool.eq_false_of_not_eq_true (List.find?_eq_none.1 hcreated.noDup x (by
          rw [hold, live_append_of_not_free hpre]
          exact List.mem_append_left _ hx))
      have hapart : ∀ x ∈ live post', x.cluster ≠ p := fun x hx hxp =>
        live_apart_of_post hpost x hx (hxp.trans hp)
      rw [hcreated.node_eq] at hfound
      have hplain := ((finds_new_iff h' hname hpre hdup hnew hapart).1 hfound.found).1
      exact absurd (hplain.ext (by decide)).1 (by decide)
  · rw [hslots] at hnone
    exact absurd hnone (by decide)
  · exact absurd hlt (by decide)

end Fat

end RossOs
