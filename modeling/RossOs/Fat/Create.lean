import RossOs.Fat.Dir

/-!
# What `create` does to a directory

`create` puts its record into the first free slot and marks the slot after it as the end, when that
slot is in the same cluster. The slots before stay, and what the directory shows after them depends
on where the free slot is: `dirSlots_putRecord` and `dirSlots_grown` are the two cases, and
`create_losesNothing_iff` says exactly when no entry is lost.
-/

namespace RossOs

open ByteMem Ahci

namespace Fat

/-! ## The record in its cluster -/

/-- Slot `i` of a cluster with the bytes `buf`. -/
def slotIn (buf : List UInt8) (c i : ℕ) : DirEntry := ⟨slice buf (32 * i) 32, c, 32 * i⟩

section
variable {fs : Fat32Fs} {d : Disk} {raw buf : List UInt8} {c i k : ℕ} {cs : List ℕ}

/-- The slots of a cluster, by index. -/
theorem slotsOf_eq : slotsOf fs buf c = (List.range fs.slots).map (slotIn buf c) := rfl

/-- The slots of a cluster, around one of them. -/
theorem slotsOf_split (hi : i < fs.slots) :
    slotsOf fs buf c = (List.range i).map (slotIn buf c) ++
      slotIn buf c i :: (List.range' (i + 1) (fs.slots - (i + 1))).map (slotIn buf c) := by
  have hsplit : List.range fs.slots =
      List.range i ++ i :: List.range' (i + 1) (fs.slots - (i + 1)) := by
    rw [← List.range'_succ, List.range_eq_range', List.range_eq_range']
    have h := List.range'_append_1 (s := 0) (m := i) (n := fs.slots - (i + 1) + 1)
    rw [Nat.zero_add] at h
    rw [h]
    congr 1
    omega
  rw [slotsOf_eq, hsplit, List.map_append, List.map_cons]

/-- The end mark is a first byte of zero. -/
theorem DirEntry.isEnd_iff {e : DirEntry} : e.isEnd = true ↔ e.b0 = 0x00 := decide_eq_true_iff

/-- A free slot is the end mark or a deleted entry. -/
theorem DirEntry.isFree_iff {e : DirEntry} : e.isFree = true ↔ e.b0 = 0x00 ∨ e.b0 = 0xE5 :=
  decide_eq_true_iff

/-- The end mark is a free slot. -/
theorem DirEntry.isFree_of_isEnd {e : DirEntry} (h : e.isEnd = true) : e.isFree = true :=
  DirEntry.isFree_iff.2 (.inl (DirEntry.isEnd_iff.1 h))

/-- A free slot is not an entry. -/
theorem DirEntry.isUsed_of_isFree {e : DirEntry} (h : e.isFree = true) : e.isUsed = false :=
  decide_eq_false fun hused => hused.1 h

/-- The first byte of a slot. -/
theorem b0_slotIn : (slotIn buf c i).b0 = buf.getD (32 * i) 0 :=
  (getD_slice buf (by decide)).trans rfl

variable (hraw : raw.length = 11) (hbuf : buf.length = fs.clusterSizeBytes) (hi : i < fs.slots)

include hraw hbuf hi

/-- The cluster with the new record keeps its length. -/
theorem length_splice_newRecord :
    (splice buf (32 * i) (newRecord raw)).length = fs.clusterSizeBytes := by
  have hcb := fs.slots_eq
  rw [length_splice, hbuf]
  rw [length_newRecord hraw]
  omega

/-- The slot written holds the new record. -/
theorem slotIn_putRecord_self :
    slotIn (putRecord fs raw (32 * i) buf) c i = ⟨newRecord raw, c, 32 * i⟩ := by
  have hcb := fs.slots_eq
  have hlen := length_splice_newRecord hraw hbuf hi
  have hself := slice_splice_self buf (newRecord raw) (32 * i)
    (by rw [length_newRecord hraw]; omega)
  rw [length_newRecord hraw] at hself
  rw [slotIn, putRecord]
  split
  · rw [slice_splice_of_disjoint (by rw [List.length_singleton]; omega) (.inl le_rfl), hself]
  · rw [hself]

/-- The slot after the record marks the end. -/
theorem slotIn_putRecord_next (hnext : i + 1 < fs.slots) :
    (slotIn (putRecord fs raw (32 * i) buf) c (i + 1)).isEnd = true := by
  have hcb := fs.slots_eq
  have hlen := length_splice_newRecord hraw hbuf hi
  rw [DirEntry.isEnd_iff, b0_slotIn, putRecord, if_pos (by omega),
    getD_splice (by rw [List.length_singleton]; omega),
    if_pos (by rw [List.length_singleton]; omega), show 32 * (i + 1) - (32 * i + 32) = 0 by omega]
  rfl

/-- The slots other than the one written and the one behind it stay. -/
theorem slotIn_putRecord_of_ne (hki : k ≠ i) (hki' : k ≠ i + 1) :
    slotIn (putRecord fs raw (32 * i) buf) c k = slotIn buf c k := by
  have hcb := fs.slots_eq
  have hlen := length_splice_newRecord hraw hbuf hi
  have hold : slice (splice buf (32 * i) (newRecord raw)) (32 * k) 32 = slice buf (32 * k) 32 := by
    refine slice_splice_of_disjoint ?_ ?_
    · rw [length_newRecord hraw]
      omega
    · rw [length_newRecord hraw]
      omega
  rw [slotIn, putRecord]
  split
  · rw [slice_splice_of_disjoint (by rw [List.length_singleton]; omega)
      (by rw [List.length_singleton]; omega), hold]
    rfl
  · rw [hold]
    rfl

/-- The slots of the cluster after the record is put: those before it stay, and those after it are
cut off by an end mark. -/
theorem slotsOf_putRecord (c : ℕ) : ∃ rest,
    slotsOf fs (putRecord fs raw (32 * i) buf) c =
      (List.range i).map (slotIn buf c) ++ ⟨newRecord raw, c, 32 * i⟩ :: rest ∧
    (i + 1 < fs.slots → ∃ x rest', rest = x :: rest' ∧ x.isEnd = true) ∧
    (i + 1 = fs.slots → rest = []) := by
  refine ⟨(List.range' (i + 1) (fs.slots - (i + 1))).map (slotIn (putRecord fs raw (32 * i) buf) c),
    ?_, fun hnext => ?_, fun hlast => ?_⟩
  · rw [slotsOf_split hi, slotIn_putRecord_self hraw hbuf hi]
    congr 1
    refine List.map_congr_left fun k hk => ?_
    have hk := List.mem_range.1 hk
    exact slotIn_putRecord_of_ne hraw hbuf hi (by omega) (by omega)
  · obtain ⟨n, hn⟩ : ∃ n, fs.slots - (i + 1) = n + 1 := ⟨fs.slots - (i + 2), by omega⟩
    rw [hn, List.range'_succ, List.map_cons]
    exact ⟨_, _, rfl, slotIn_putRecord_next hraw hbuf hi hnext⟩
  · rw [hlast, Nat.sub_self]
    rfl

end

/-! ## The directory with the record -/

section
variable {fs : Fat32Fs} {d d' : Disk} {raw : List UInt8} {cs : List ℕ} {e : DirEntry}

/-- The slots of clusters put together. -/
theorem dirSlots_append (cs cs' : List ℕ) :
    dirSlots fs d (cs ++ cs') = dirSlots fs d cs ++ dirSlots fs d cs' := List.flatMap_append

/-- The slots of a directory whose clusters keep their bytes. -/
theorem dirSlots_congr (d d' : Disk) (h : ∀ c ∈ cs, cluster fs d' c = cluster fs d c) :
    dirSlots fs d' cs = dirSlots fs d cs := by
  rw [dirSlots, dirSlots, List.flatMap_def, List.flatMap_def,
    List.map_congr_left fun c hc => by rw [h c hc]]

/-- Where the first free slot is. -/
theorem exists_of_find?_isFree (h : (dirSlots fs d cs).find? (·.isFree) = some e) :
    ∃ cs₁ cs₂ i, cs = cs₁ ++ e.cluster :: cs₂ ∧ i < fs.slots ∧
      e = slotIn (cluster fs d e.cluster) e.cluster i ∧
      (∀ x ∈ dirSlots fs d cs₁, x.isFree = false) ∧
      ∀ k < i, (slotIn (cluster fs d e.cluster) e.cluster k).isFree = false := by
  induction cs with
  | nil => cases h
  | cons c cs ih =>
    rw [dirSlots_cons, List.find?_append] at h
    cases hrow : (slotsOf fs (cluster fs d c) c).find? (·.isFree) with
    | some x =>
      rw [hrow] at h
      cases h
      rw [slotsOf_eq, List.find?_map] at hrow
      obtain ⟨i, hfind, rfl⟩ := Option.map_eq_some_iff.1 hrow
      obtain ⟨-, hi, hbefore⟩ := List.find?_range_eq_some.1 hfind
      refine ⟨[], cs, i, rfl, List.mem_range.1 hi, rfl, nofun, fun k hk => ?_⟩
      exact Bool.eq_false_of_not_eq_true' (hbefore k hk)
    | none =>
      rw [hrow, Option.none_or] at h
      obtain ⟨cs₁, cs₂, i, hcs, hi, he, hpre, hbefore⟩ := ih h
      refine ⟨c :: cs₁, cs₂, i, congrArg (c :: ·) hcs, hi, he, fun x hx => ?_, hbefore⟩
      rw [dirSlots_cons] at hx
      rcases List.mem_append.1 hx with hx | hx
      · exact Bool.eq_false_of_not_eq_true (List.find?_eq_none.1 hrow x hx)
      · exact hpre x hx

/-- A record in the first free slot. The slots before it stay; those after it stay when it is the
last slot of its cluster, and are cut off otherwise. -/
theorem dirSlots_putRecord (hcs : ∀ c ∈ cs, 2 ≤ c) (hnodup : cs.Nodup) (hraw : raw.length = 11)
    (h : (dirSlots fs d cs).find? (·.isFree) = some e)
    (hd' : d' = setCluster fs d e.cluster (putRecord fs raw e.off (cluster fs d e.cluster))) :
    ∃ pre post post', dirSlots fs d cs = pre ++ e :: post ∧ (∀ x ∈ pre, x.isFree = false) ∧
      dirSlots fs d' cs = pre ++ ⟨newRecord raw, e.cluster, e.off⟩ :: post' ∧
      if e.off + 64 ≤ fs.clusterSizeBytes then ∃ x rest, post' = x :: rest ∧ x.isEnd = true
      else post' = post ∧ ∀ x ∈ post, x.cluster ≠ e.cluster := by
  have hcb := fs.slots_eq
  obtain ⟨cs₁, cs₂, i, rfl, hi, he, hpre, hbefore⟩ := exists_of_find?_isFree h
  have hp : e.cluster ∈ cs₁ ++ e.cluster :: cs₂ :=
    List.mem_append_right _ List.mem_cons_self
  obtain ⟨-, hnd₂, hdisj⟩ := List.nodup_append.1 hnodup
  have hoff : e.off = 32 * i := congrArg DirEntry.off he
  rw [hoff] at hd' ⊢
  have hlen := length_putRecord fs (32 * i) (cluster fs d e.cluster) hraw
    (by omega) (length_cluster ..)
  have hcluster : ∀ {x}, 2 ≤ x → cluster fs d' x = if x = e.cluster then
      putRecord fs raw (32 * i) (cluster fs d e.cluster) else cluster fs d x := by
    intro x hx
    rw [hd', cluster_setCluster hlen (hcs _ hp) hx]
  have hfirst : dirSlots fs d' cs₁ = dirSlots fs d cs₁ := by
    refine dirSlots_congr d d' fun c hc => ?_
    rw [hcluster (hcs c (List.mem_append_left _ hc)),
      if_neg (hdisj c hc _ List.mem_cons_self)]
  have hne : ∀ c ∈ cs₂, c ≠ e.cluster := fun c hc hce =>
    (List.nodup_cons.1 hnd₂).1 (hce ▸ hc)
  have hlast : dirSlots fs d' cs₂ = dirSlots fs d cs₂ := by
    refine dirSlots_congr d d' fun c hc => ?_
    rw [hcluster (hcs c (List.mem_append_right _ (List.mem_cons_of_mem _ hc))),
      if_neg (hne c hc)]
  obtain ⟨rest, hrow, hnext, hend⟩ := slotsOf_putRecord hraw
    (length_cluster fs d e.cluster) hi e.cluster
  refine ⟨dirSlots fs d cs₁ ++
      (List.range i).map (slotIn (cluster fs d e.cluster) e.cluster),
    (List.range' (i + 1) (fs.slots - (i + 1))).map (slotIn (cluster fs d e.cluster) e.cluster) ++
      dirSlots fs d cs₂, rest ++ dirSlots fs d cs₂, ?_, fun x hx => ?_, ?_, ?_⟩
  · rw [dirSlots_append, dirSlots_cons, slotsOf_split hi, ← he, List.append_assoc,
      List.append_assoc, List.cons_append]
  · rcases List.mem_append.1 hx with hx | hx
    · exact hpre x hx
    · obtain ⟨k, hk, rfl⟩ := List.mem_map.1 hx
      exact hbefore k (List.mem_range.1 hk)
  · rw [dirSlots_append, dirSlots_cons, hfirst, hlast, hcluster (hcs _ hp), if_pos rfl, hrow,
      List.append_assoc, List.append_assoc, List.cons_append]
  · split
    · obtain ⟨x, rest', rfl, hx⟩ := hnext (by omega)
      exact ⟨x, _, rfl, hx⟩
    · have hi' : i + 1 = fs.slots := by omega
      rw [hend hi', hi', Nat.sub_self]
      refine ⟨rfl, fun x hx => ?_⟩
      exact hne _ (mem_dirSlots hx).1

/-- A record in a cluster that was added for it. -/
theorem dirSlots_grown {new : ℕ} (hcs : ∀ c ∈ cs, 2 ≤ c) (hraw : raw.length = 11) (hnew : 2 ≤ new)
    (hnot : new ∉ cs) {d₁ : Disk} (hd₁ : ∀ c ∈ cs, cluster fs d₁ c = cluster fs d c)
    (hd' : d' = setCluster fs d₁ new (putRecord fs raw 0 (cluster fs d₁ new))) :
    ∃ post', dirSlots fs d' (cs ++ [new]) = dirSlots fs d cs ++ ⟨newRecord raw, new, 0⟩ :: post' ∧
      (post' = [] ∨ ∃ x rest, post' = x :: rest ∧ x.isEnd = true) := by
  have hcb := fs.slots_eq
  have hpos := fs.clusterSizeBytes_pos
  have hlen := length_putRecord fs 0 (cluster fs d₁ new) hraw
    (by omega) (length_cluster ..)
  obtain ⟨rest, hrow, hnext, hend⟩ := slotsOf_putRecord (i := 0) hraw
    (length_cluster fs d₁ new) (by omega) new
  refine ⟨rest, ?_, ?_⟩
  · rw [dirSlots_append, dirSlots_cons, dirSlots_congr d d' fun c hc => ?_]
    · congr 1
      rw [hd', cluster_setCluster hlen hnew hnew, if_pos rfl]
      exact (List.append_nil _).trans hrow
    · rw [hd', cluster_setCluster hlen hnew (hcs c hc), if_neg fun (h : c = new) => hnot (h ▸ hc),
        hd₁ c hc]
  · rcases Nat.lt_or_ge 1 fs.slots with h1 | h1
    · exact .inr (hnext h1)
    · exact .inl (hend (by omega))

end

/-! ## What is lost -/

/-- The record of a node on the drive. -/
def recordOf (fs : Fat32Fs) (d : Disk) (n : Fat32Node) : List UInt8 :=
  slice (cluster fs d n.parentCluster) n.dirEntryOffset 32

/-- The entry has the name of the record for `raw`. -/
def hasName (raw : List UInt8) (e : DirEntry) : Bool :=
  nameMatches e.bytes (decode83 (newRecord raw))

/-- Every entry that could be found is found as before, with the same record, and the names are the
old ones with that of the record for `raw` put in somewhere. -/
structure LosesNothing (fs : Fat32Fs) (d d' : Disk) (node : Fat32Node) (raw : List UInt8) :
    Prop where
  keeps : ∀ name n, Finds fs d node name n →
    Finds fs d' node name n ∧ recordOf fs d' n = recordOf fs d n
  inserts : ∀ l, Lists fs d node l → ∃ l₁ l₂, l = l₁ ++ l₂ ∧
    Lists fs d' node (l₁ ++ decode83 (newRecord raw) :: l₂)

/-- The new record is visible and hides nothing: the directory has a cluster, the name does not
start with a mark, and the first free slot `e` is in a place where the end mark that `create` sets,
or the one that it overwrites, does not matter, and no entry after it has the same name. -/
def KeepsAll (fs : Fat32Fs) (d : Disk) (cs : List ℕ) (raw : List UInt8) : Prop :=
  cs ≠ [] ∧ raw.getD 0 0 ≠ 0x00 ∧ raw.getD 0 0 ≠ 0xE5 ∧
  match (dirSlots fs d cs).dropWhile (!·.isFree) with
  | [] => True
  | e :: post =>
    if e.off + 64 ≤ fs.clusterSizeBytes then e.isEnd = true ∨ live post = []
    else if e.isEnd then live post = []
    else ∀ x ∈ live post, hasName raw x = true →
      ∃ y ∈ live ((dirSlots fs d cs).takeWhile (!·.isFree)), hasName raw y = true

section
variable {pre post : List DirEntry} {e : DirEntry} {raw : List UInt8}

/-- Slots with no free one among them hide nothing behind them. -/
theorem live_append_of_not_free (hpre : ∀ x ∈ pre, x.isFree = false) (l : List DirEntry) :
    live (pre ++ l) = live pre ++ live l := by
  rw [live_append, if_neg]
  intro hany
  obtain ⟨x, hx, hend⟩ := List.any_eq_true.1 hany
  exact Bool.noConfusion ((hpre x hx).symm.trans (DirEntry.isFree_of_isEnd hend))

/-- Nothing behind the end mark is live. -/
theorem live_cons_of_isEnd (h : e.isEnd = true) : live (e :: post) = [] := by
  rw [live_cons, if_pos h]

/-- A free slot adds no entry, and ends the list when it is the end mark. -/
theorem live_cons_of_isFree (hfree : e.isFree = true) :
    live (e :: post) = if e.isEnd then [] else live post := by
  rw [live_cons, DirEntry.isUsed_of_isFree hfree, if_neg Bool.false_ne_true]

/-- The first byte of a new record is that of its name. -/
theorem b0_newRecord (p off : ℕ) (hraw : raw.length = 11) :
    (⟨newRecord raw, p, off⟩ : DirEntry).b0 = raw.getD 0 0 := by
  rw [DirEntry.b0, newRecord, List.append_assoc, List.getD_append _ _ _ _ (by omega)]

/-- A new record is a plain file. -/
theorem attr_newRecord (hraw : raw.length = 11) : attr (newRecord raw) = 0x20 := by
  rw [attr, newRecord, List.append_assoc, List.getD_append_right _ _ _ _ (by omega), hraw]
  rfl

/-- The record is that of an empty file. -/
theorem nodeOf_newRecord (p off : ℕ) (hraw : raw.length = 11) :
    nodeOf ⟨newRecord raw, p, off⟩ = .file 0 0 p off := by
  have hzero : ∀ o n, 12 ≤ o → o + n ≤ 32 → slice (newRecord raw) o n = List.replicate n 0 := by
    intro o n ho hn
    have hlen : ([0x20] ++ List.replicate 20 (0 : UInt8)).length = 21 := rfl
    rw [slice, newRecord, List.append_assoc, List.drop_append, List.drop_eq_nil_of_le (by omega),
      List.nil_append, hraw, show o - 11 = o - 12 + 1 by omega]
    show (List.drop (o - 12) (List.replicate 20 (0 : UInt8))).take n = _
    rw [List.drop_replicate, List.take_replicate, min_eq_left (by omega)]
  rw [nodeOf, if_neg (by rw [attr_newRecord hraw]; decide), firstClusterOf, entrySize, field, field,
    field, hzero _ _ (by decide) (by decide), hzero _ _ (by decide) (by decide),
    hzero _ _ (by decide) (by decide), leNat_replicate_zero, leNat_replicate_zero]
  rfl

/-- The new record is used, unless its name starts with a mark. -/
theorem isUsed_newRecord (p off : ℕ) (hraw : raw.length = 11) :
    (⟨newRecord raw, p, off⟩ : DirEntry).isUsed = true ↔
      raw.getD 0 0 ≠ 0x00 ∧ raw.getD 0 0 ≠ 0xE5 := by
  have hb := b0_newRecord p off hraw
  rw [DirEntry.isUsed, decide_eq_true_iff, DirEntry.isFree_iff, hb, attr_newRecord hraw]
  exact ⟨fun h => not_or.1 h.1, fun h => ⟨not_or.2 h, by decide⟩⟩

end

/-! ## Names -/

section
variable {e e' raw : List UInt8} {name : String}

/-- A name that one record has belongs to the records with that record's name. -/
theorem nameMatches_iff_of_matches (h : nameMatches e name = true) :
    nameMatches e' name = true ↔ nameMatches e' (decode83 e) = true := by
  have heq := beq_iff_eq.1 h
  rw [nameMatches, eqIgnoreAsciiCase, beq_iff_eq, nameMatches, eqIgnoreAsciiCase, beq_iff_eq, heq]

/-- A byte as a character keeps its number. -/
theorem asChar_toNat (b : UInt8) : (asChar b).toNat = b.toNat := by
  have hvalid : b.toNat.isValidChar := .inl (b.toNat_lt.trans (by decide))
  rw [asChar, Char.ofNat, dif_pos hvalid]
  rfl

/-- No letter becomes `0xE5` in lower case. -/
theorem eq_of_toAsciiLowercase_eq {b : UInt8}
    (h : asChar (toAsciiLowercase b) = asChar 0xE5) : b = 0xE5 := by
  have hnat := congrArg Char.toNat h
  rw [asChar_toNat, asChar_toNat, UInt8.toNat_inj] at hnat
  rw [toAsciiLowercase] at hnat
  split at hnat
  case isTrue hupper =>
    have h1 : b.toNat ≤ 0x5A := UInt8.le_iff_toNat_le.1 hupper.2
    have h2 := congrArg UInt8.toNat hnat
    rw [UInt8.toNat_add] at h2
    have h3 : (0xE5 : UInt8).toNat = 229 := rfl
    have h4 : (32 : UInt8).toNat = 32 := rfl
    omega
  case isFalse => exact hnat

/-- Trimming trailing spaces keeps a first byte that is no space. -/
theorem head?_trimSpaces {b : UInt8} {l : List UInt8} (hb : b ≠ 0x20) :
    (trimSpaces (b :: l)).head? = some b := by
  have hne : trimSpaces (b :: l) ≠ [] := fun h =>
    hb (eq_of_beq (List.rdropWhile_eq_nil_iff.1 h b List.mem_cons_self))
  obtain ⟨t, ht⟩ := List.rdropWhile_prefix (· == (0x20 : UInt8)) (l := b :: l)
  cases htrim : trimSpaces (b :: l) with
  | nil => exact absurd htrim hne
  | cons x m =>
    rw [trimSpaces] at htrim
    rw [htrim, List.cons_append] at ht
    rw [List.head?_cons, (List.cons.inj ht).1]

/-- A record whose name starts with the mark `0xE5` shows it. -/
theorem head?_decode83_deleted (h : e.getD 0 0 = 0xE5) :
    (decode83 e).toList.head? = some (asChar 0xE5) := by
  cases e with
  | nil => exact absurd h (by decide)
  | cons b l =>
    obtain rfl : b = 0xE5 := h
    have hbase : (trimSpaces (slice (0xE5 :: l) 0 8)).head? = some 0xE5 :=
      head?_trimSpaces (by decide)
    rw [decode83, String.toList_ofList, List.head?_append, List.head?_map, hbase]
    rfl

/-- Only such a record shows it. -/
theorem getD_of_head?_decode83 (h : (decode83 e).toList.head? = some (asChar 0xE5)) :
    e.getD 0 0 = 0xE5 := by
  rw [decode83, String.toList_ofList, List.head?_append, List.head?_map] at h
  cases hbase : trimSpaces (slice e 0 8) with
  | nil =>
    rw [hbase] at h
    split at h
    · cases h
    · exact absurd (Option.some.inj h) (by decide)
  | cons b l =>
    rw [hbase] at h
    have hb := eq_of_toAsciiLowercase_eq (Option.some.inj h)
    obtain ⟨t, ht⟩ := List.rdropWhile_prefix (· == (0x20 : UInt8)) (l := slice e 0 8)
    rw [show List.rdropWhile (· == (0x20 : UInt8)) (slice e 0 8) = b :: l from hbase] at ht
    have hget := getD_slice e (o := 0) (n := 8) (i := 0) (by decide)
    rw [← ht] at hget
    exact hget.symm.trans hb

end

/-! ## The directory after `create` -/

/-- A directory that can be read: a node for it, and its clusters. -/
structure Readable (fs : Fat32Fs) (d : Disk) (node : Fat32Node) (cs : List ℕ) : Prop where
  fits : fs.Fits d.capacity
  chain : DirChain fs d node.firstCluster cs
  isDir : node.isDir = true

/-- The directory after `create`. A directory without clusters stays so. Otherwise the record is in
the first free slot `e`, or in a cluster that was added. -/
inductive Shows (fs : Fat32Fs) (d d' : Disk) (node : Fat32Node) (cs : List ℕ) (new : DirEntry) :
    Prop
  | nowhere : cs = [] → Readable fs d' node [] → Shows fs d d' node cs new
  | slot {e : DirEntry} {pre post post' : List DirEntry} : cs ≠ [] → Readable fs d' node cs →
    dirSlots fs d cs = pre ++ e :: post → (∀ x ∈ pre, x.isFree = false) → e.isFree = true →
    dirSlots fs d' cs = pre ++ new :: post' → new.cluster = e.cluster → new.off = e.off →
    (if e.off + 64 ≤ fs.clusterSizeBytes then live post' = []
      else post' = post ∧ ∀ x ∈ post, x.cluster ≠ e.cluster) → Shows fs d d' node cs new
  | grown {post' : List DirEntry} : cs ≠ [] → Readable fs d' node (cs ++ [new.cluster]) →
    (∀ x ∈ dirSlots fs d cs, x.isFree = false) →
    dirSlots fs d' (cs ++ [new.cluster]) = dirSlots fs d cs ++ new :: post' → live post' = [] →
    Shows fs d d' node cs new

section
variable {fs : Fat32Fs} {d d' d₁ : Disk} {node n : Fat32Node} {cs cs' : List ℕ} {p off fuel : ℕ}
  {name : String} {raw : List UInt8} {l q : List DirEntry} {new : DirEntry}

/-- Slots that start with the end mark hold no live entry. -/
theorem live_eq_nil_of_head {post : List DirEntry}
    (h : ∃ x rest, post = x :: rest ∧ x.isEnd = true) : live post = [] := by
  obtain ⟨x, rest, rfl, hend⟩ := h
  exact live_cons_of_isEnd hend

/-- The new record stands in the directory after `create`. -/
theorem Created.shows (h : Created fs d node cs name n d' raw p off d₁)
    (hfits : fs.Fits d.capacity) (hchain : DirChain fs d node.firstCluster cs) :
    Shows fs d d' node cs ⟨newRecord raw, p, off⟩ := by
  have hraw := length_to83 h.name83
  have hd' := h.disk_eq
  obtain ⟨-, -, hcap⟩ := h.placed.inRange hchain
  have hfits' : fs.Fits d'.capacity := by rwa [hd', setCluster_capacity, hcap]
  have hfits₁ : fs.Fits d₁.capacity := by rwa [hcap]
  cases h.placed with
  | @slot e hfree =>
    rcases hchain with ⟨-, rfl⟩ | hchain
    · cases hfree
    · obtain ⟨pre, post, post', hold, hpre, hnew, hpost⟩ := dirSlots_putRecord
        (fun c hc => (hchain.mem_in c hc).1) (hchain.nodup hfits) hraw hfree hd'
      refine .slot hchain.ne_nil ⟨hfits', ?_, h.isDir⟩ hold hpre
        (List.find?_some hfree : e.isFree = true) hnew rfl rfl ?_
      · rw [hd']
        exact .inr (hchain.setCluster hfits)
      · split
        · exact live_eq_nil_of_head (by rwa [if_pos ‹_›] at hpost)
        · rwa [if_neg ‹_›] at hpost
  | grown hnone hfirst =>
    obtain ⟨hin, -⟩ := firstFree_some hfirst
    rcases hchain with ⟨hc, rfl⟩ | hchain
    · exact .nowhere rfl ⟨hfits', .inl ⟨hc, rfl⟩, h.isDir⟩
    · have hlast := List.getLast?_eq_some_getLast hchain.ne_nil
      have hlastD : cs.getLastD node.firstCluster = cs.getLast hchain.ne_nil := by
        rw [List.getLastD_eq_getLast?, hlast]
        rfl
      have hnot := hchain.firstFree_notMem hfirst
      have hp : ∀ x ∈ some (cs.getLastD node.firstCluster), x < fs.entries := by
        intro x hx
        cases hx
        rw [hlastD]
        exact (hchain.mem_in _ (List.getLast_mem _)).2
      obtain ⟨post', hnew, hpost⟩ := dirSlots_grown (d := d)
        (fun c hc => (hchain.mem_in c hc).1) hraw hin.1 hnot (fun c hc => by
          rw [cluster_allocated hin hp (hchain.mem_in c hc).1,
            if_neg fun (he : c = p) => hnot (he ▸ hc)]) hd'
      refine .grown hchain.ne_nil ⟨hfits', .inr ?_, h.isDir⟩
        (fun x hx => Bool.eq_false_of_not_eq_true (List.find?_eq_none.1 hnone x hx)) hnew ?_
      · have hgrown := hchain.allocated hfits hlast hfirst
        rw [← hlastD] at hgrown
        rw [hd']
        exact hgrown.setCluster hfits₁
      · rcases hpost with rfl | hpost
        · rfl
        · exact live_eq_nil_of_head hpost

/-- A name is looked up among the entries before first. -/
theorem find?_append_cons_of_hidden {p : DirEntry → Bool} {e : DirEntry}
    (h : (l ++ q).find? p = some e)
    (hhidden : p new = true → e ∈ q → ∃ y ∈ l, p y = true) :
    (l ++ new :: q).find? p = some e := by
  rw [List.find?_append] at h ⊢
  cases hl : l.find? p with
  | some y => rwa [hl] at h
  | none =>
    rw [hl, Option.none_or] at h
    rw [Option.none_or, List.find?_cons]
    cases hp : p new with
    | false => exact h
    | true =>
      obtain ⟨y, hy, hpy⟩ := hhidden hp (List.mem_of_find?_eq_some h)
      exact absurd hpy (List.find?_eq_none.1 hl y hy)

/-- The record behind a node is the one of its slot. -/
theorem recordOf_nodeOf {e : DirEntry} (he : e ∈ dirSlots fs d cs) :
    recordOf fs d (nodeOf e) = e.bytes := by
  obtain ⟨-, i, -, hoff, hbytes⟩ := mem_dirSlots he
  rw [recordOf, parentCluster_nodeOf, dirEntryOffset_nodeOf, hoff, hbytes]

/-- The new entry hides no entry from a lookup. -/
theorem lookup_of_inserted {slots slots' : List DirEntry} {e : DirEntry}
    (hlive : live slots = l ++ q) (hlive' : live slots' = l ++ new :: q)
    (hnew : new.bytes = newRecord raw)
    (hname : ∀ x ∈ q, hasName raw x = true → ∃ y ∈ l, hasName raw y = true)
    (hlook : lookup slots name = some e) : lookup slots' name = some e := by
  rw [lookup, hlive] at hlook
  rw [lookup, hlive']
  refine find?_append_cons_of_hidden hlook fun hmatch hq => ?_
  have he : nameMatches e.bytes name = true :=
    List.find?_some (p := fun e : DirEntry => nameMatches e.bytes name) hlook
  rw [hnew] at hmatch
  obtain ⟨y, hy, hyname⟩ := hname e hq ((nameMatches_iff_of_matches hmatch).1 he)
  exact ⟨y, hy, (nameMatches_iff_of_matches hmatch).2 hyname⟩

/-- One more live entry, which hides no other. -/
theorem losesNothing_of_live (h : Readable fs d node cs) (h' : Readable fs d' node cs')
    (hlive : live (dirSlots fs d cs) = l ++ q) (hlive' : live (dirSlots fs d' cs') = l ++ new :: q)
    (hnew : new.bytes = newRecord raw)
    (hname : ∀ x ∈ q, hasName raw x = true → ∃ y ∈ l, hasName raw y = true) :
    LosesNothing fs d d' node raw := by
  refine ⟨fun name n hfinds => ?_, fun ns hlists => ?_⟩
  · obtain ⟨e, hlook, rfl⟩ := (finds_iff h.fits h.chain h.isDir).1 hfinds
    have hlook' := lookup_of_inserted hlive hlive' hnew hname hlook
    have hmem : e ∈ live (dirSlots fs d cs) := List.mem_of_find?_eq_some hlook
    have hmem' : e ∈ live (dirSlots fs d' cs') := List.mem_of_find?_eq_some hlook'
    refine ⟨(finds_iff h'.fits h'.chain h'.isDir).2 ⟨e, hlook', rfl⟩, ?_⟩
    rw [recordOf_nodeOf (mem_live hmem).1, recordOf_nodeOf (mem_live hmem').1]
  · rw [lists_iff h.fits h.chain h.isDir] at hlists
    refine ⟨l.map fun e => decode83 e.bytes, q.map fun e => decode83 e.bytes, ?_, ?_⟩
    · rw [hlists, names, hlive, List.map_append]
    · rw [lists_iff h'.fits h'.chain h'.isDir, names, hlive', List.map_append, List.map_cons, hnew]

/-- A directory that loses nothing lists the old names with the new one among them. -/
theorem LosesNothing.names_eq (hlose : LosesNothing fs d d' node raw) (h : Readable fs d node cs)
    (h' : Readable fs d' node cs') : ∃ l₁ l₂, names (dirSlots fs d cs) = l₁ ++ l₂ ∧
      names (dirSlots fs d' cs') = l₁ ++ decode83 (newRecord raw) :: l₂ := by
  obtain ⟨l₁, l₂, hl, hlists⟩ := hlose.inserts _ ((lists_iff h.fits h.chain h.isDir).2 rfl)
  exact ⟨l₁, l₂, hl, ((lists_iff h'.fits h'.chain h'.isDir).1 hlists).symm⟩

/-- There is one more live entry. -/
theorem LosesNothing.length_live (hlose : LosesNothing fs d d' node raw)
    (h : Readable fs d node cs) (h' : Readable fs d' node cs') :
    (live (dirSlots fs d' cs')).length = (live (dirSlots fs d cs)).length + 1 := by
  obtain ⟨l₁, l₂, hold, hnew⟩ := hlose.names_eq h h'
  have h1 := congrArg List.length hold
  have h2 := congrArg List.length hnew
  rw [names, List.length_map, List.length_append] at h1
  rw [names, List.length_map, List.length_append, List.length_cons] at h2
  omega

/-- The name of the new record is the name of a live entry. -/
theorem LosesNothing.mem_names (hlose : LosesNothing fs d d' node raw)
    (h : Readable fs d node cs) (h' : Readable fs d' node cs') :
    ∃ x ∈ live (dirSlots fs d' cs'), decode83 x.bytes = decode83 (newRecord raw) := by
  obtain ⟨l₁, l₂, -, hnew⟩ := hlose.names_eq h h'
  have hmem : decode83 (newRecord raw) ∈ names (dirSlots fs d' cs') := by
    rw [hnew]
    exact List.mem_append_right _ List.mem_cons_self
  obtain ⟨x, hx, heq⟩ := List.mem_map.1 hmem
  exact ⟨x, hx, heq⟩

/-- The new record is visible when nothing is lost: a deleted record shows no name, and an end mark
adds no entry. -/
theorem LosesNothing.visible (hlose : LosesNothing fs d d' node raw)
    (h : Readable fs d node cs) (h' : Readable fs d' node cs') (hraw : raw.length = 11)
    {pre post' : List DirEntry} (post : List DirEntry)
    (hpre : ∀ x ∈ pre, x.isFree = false) (hold : dirSlots fs d cs = pre ++ post)
    (hnew : dirSlots fs d' cs' = pre ++ ⟨newRecord raw, p, off⟩ :: post') :
    raw.getD 0 0 ≠ 0x00 ∧ raw.getD 0 0 ≠ 0xE5 := by
  have hb := b0_newRecord p off hraw
  refine ⟨fun h0 => ?_, fun hE5 => ?_⟩
  · have hlen := hlose.length_live h h'
    rw [hold, hnew, live_append_of_not_free hpre, live_append_of_not_free hpre,
      live_cons_of_isEnd (DirEntry.isEnd_iff.2 (hb.trans h0)), List.append_nil,
      List.length_append] at hlen
    omega
  · obtain ⟨x, hx, hname⟩ := hlose.mem_names h h'
    have hrec : (newRecord raw).getD 0 0 = 0xE5 := hb.trans hE5
    have hx0 := getD_of_head?_decode83 (hname ▸ head?_decode83_deleted hrec)
    have hused := (of_decide_eq_true (mem_live hx).2).1
    exact hused (DirEntry.isFree_iff.2 (.inr hx0))

/-- A new record is a live entry unless its name starts with a mark. -/
theorem live_cons_newRecord (hraw : raw.length = 11) (h0 : raw.getD 0 0 ≠ 0x00)
    (hE5 : raw.getD 0 0 ≠ 0xE5) (l : List DirEntry) :
    live (⟨newRecord raw, p, off⟩ :: l) = ⟨newRecord raw, p, off⟩ :: live l := by
  have hused := (isUsed_newRecord p off hraw).2 ⟨h0, hE5⟩
  rw [live_cons, if_neg, if_pos hused]
  intro hend
  rw [DirEntry.isUsed_of_isFree (DirEntry.isFree_of_isEnd hend)] at hused
  cases hused

/-- The part of a list from the first free slot on. -/
theorem dropWhile_takeWhile_of_first {pre : List DirEntry} (post : List DirEntry) {e : DirEntry}
    (hpre : ∀ x ∈ pre, x.isFree = false) (he : e.isFree = true) :
    (pre ++ e :: post).dropWhile (!·.isFree) = e :: post ∧
      (pre ++ e :: post).takeWhile (!·.isFree) = pre := by
  have hall : ∀ x ∈ pre, (!x.isFree) = true := fun x hx => by rw [hpre x hx]; rfl
  rw [List.dropWhile_append_of_pos hall, List.takeWhile_append_of_pos hall,
    List.dropWhile_cons_of_neg (by rw [he]; decide),
    List.takeWhile_cons_of_neg (by rw [he]; decide), List.append_nil]
  exact ⟨rfl, rfl⟩

/-- An entry after the new record with its name: the record would be found in its place, unless an
entry before it has the name, too. -/
theorem LosesNothing.named_before {pre post : List DirEntry} {x : DirEntry}
    (hlose : LosesNothing fs d d' node raw) (h : Readable fs d node cs)
    (h' : Readable fs d' node cs') (hlive : live (dirSlots fs d cs) = live pre ++ live post)
    (hlive' : live (dirSlots fs d' cs') = live pre ++ ⟨newRecord raw, p, off⟩ :: live post)
    (hapart : ∀ x ∈ post, x.cluster ≠ p) (hx : x ∈ live post) (hname : hasName raw x = true) :
    ∃ y ∈ live pre, hasName raw y = true := by
  by_contra hno
  have hfirst : (live pre).find? (fun y => nameMatches y.bytes (decode83 (newRecord raw))) =
      none := List.find?_eq_none.2 fun y hy hmatch => hno ⟨y, hy, hmatch⟩
  obtain ⟨y, hy⟩ := Option.isSome_iff_exists.1 (List.find?_isSome.2 ⟨x, hx, hname⟩)
  have hlook : lookup (dirSlots fs d cs) (decode83 (newRecord raw)) = some y := by
    rw [lookup, hlive, List.find?_append, hfirst, Option.none_or]
    exact hy
  have hself : nameMatches (newRecord raw) (decode83 (newRecord raw)) = true := BEq.rfl
  have hlook' : lookup (dirSlots fs d' cs') (decode83 (newRecord raw)) =
      some ⟨newRecord raw, p, off⟩ := by
    rw [lookup, hlive', List.find?_append, hfirst, Option.none_or]
    exact List.find?_cons_of_pos
      (p := fun e : DirEntry => nameMatches e.bytes (decode83 (newRecord raw))) hself
  obtain ⟨hfinds, -⟩ := hlose.keeps _ _
    ((finds_iff h.fits h.chain h.isDir).2 ⟨y, hlook, rfl⟩)
  obtain ⟨z, hz, hnode⟩ := (finds_iff h'.fits h'.chain h'.isDir).1 hfinds
  rw [hlook'] at hz
  cases hz
  have hcluster := congrArg Fat32Node.parentCluster hnode
  rw [parentCluster_nodeOf, parentCluster_nodeOf] at hcluster
  exact hapart y (mem_live (List.mem_of_find?_eq_some hy)).1 hcluster.symm

/-- Nothing is lost only when the end marks do not matter. -/
theorem LosesNothing.keepsAll {e : DirEntry} {pre post post' : List DirEntry} (hne : cs ≠ [])
    (hlose : LosesNothing fs d d' node raw) (h : Readable fs d node cs)
    (h' : Readable fs d' node cs) (hraw : raw.length = 11)
    (hold : dirSlots fs d cs = pre ++ e :: post) (hpre : ∀ x ∈ pre, x.isFree = false)
    (he : e.isFree = true) (hnew : dirSlots fs d' cs = pre ++ ⟨newRecord raw, p, off⟩ :: post')
    (hp : p = e.cluster)
    (hpost : if e.off + 64 ≤ fs.clusterSizeBytes then live post' = []
      else post' = post ∧ ∀ x ∈ post, x.cluster ≠ e.cluster) : KeepsAll fs d cs raw := by
  obtain ⟨hdrop, htake⟩ := dropWhile_takeWhile_of_first post hpre he
  have hlive : live (dirSlots fs d cs) = live pre ++ if e.isEnd then [] else live post := by
    rw [hold, live_append_of_not_free hpre, live_cons_of_isFree he]
  obtain ⟨h0, hE5⟩ := hlose.visible h h' hraw _ hpre hold hnew
  rw [KeepsAll, hold, hdrop, htake]
  refine ⟨hne, h0, hE5, ?_⟩
  have hlive' : live (dirSlots fs d' cs) = live pre ++ ⟨newRecord raw, p, off⟩ :: live post' := by
    rw [hnew, live_append_of_not_free hpre, live_cons_newRecord hraw h0 hE5]
  have hlen := hlose.length_live h h'
  rw [hlive, hlive', List.length_append, List.length_append, List.length_cons] at hlen
  simp only
  split
  case isTrue hin =>
    rw [if_pos hin] at hpost
    rw [hpost, List.length_nil] at hlen
    cases hend : e.isEnd with
    | true => exact .inl rfl
    | false =>
      rw [hend, if_neg Bool.false_ne_true] at hlen
      exact .inr (List.eq_nil_of_length_eq_zero (by omega))
  case isFalse hin =>
    rw [if_neg hin] at hpost
    obtain ⟨rfl, hapart⟩ := hpost
    cases hend : e.isEnd with
    | true =>
      rw [hend, if_pos rfl, List.length_nil] at hlen
      exact List.eq_nil_of_length_eq_zero (by omega)
    | false =>
      rw [hend, if_neg Bool.false_ne_true] at hlive
      rw [if_neg Bool.false_ne_true]
      exact fun x hx hname => hlose.named_before h h' hlive hlive' (hp ▸ hapart) hx hname

/-- Where the end marks do not matter, the new entry is put among the live ones, and hides none. -/
theorem Shows.inserted (h : Shows fs d d' node cs ⟨newRecord raw, p, off⟩) (hraw : raw.length = 11)
    (hkeep : KeepsAll fs d cs raw) : ∃ cs' l q, Readable fs d' node cs' ∧
      live (dirSlots fs d cs) = l ++ q ∧
      live (dirSlots fs d' cs') = l ++ ⟨newRecord raw, p, off⟩ :: q ∧
      ∀ x ∈ q, hasName raw x = true → ∃ y ∈ l, hasName raw y = true := by
  obtain ⟨hne, h0, hE5, hcond⟩ := hkeep
  cases h with
  | nowhere hcs _ => exact absurd hcs hne
  | @slot e pre post post' _ h' hold hpre he hnew _ _ hpost =>
    obtain ⟨hdrop, htake⟩ := dropWhile_takeWhile_of_first post hpre he
    have hlive : live (dirSlots fs d cs) = live pre ++ if e.isEnd then [] else live post := by
      rw [hold, live_append_of_not_free hpre, live_cons_of_isFree he]
    have hlive' : live (dirSlots fs d' cs) =
        live pre ++ ⟨newRecord raw, p, off⟩ :: live post' := by
      rw [hnew, live_append_of_not_free hpre, live_cons_newRecord hraw h0 hE5]
    rw [hold, hdrop, htake] at hcond
    simp only at hcond
    split at hcond
    case isTrue hin =>
      rw [if_pos hin] at hpost
      have hrest : (if e.isEnd then [] else live post) = [] := by
        rcases hcond with hend | hnil
        · rw [if_pos hend]
        · rw [hnil, ite_self]
      rw [hrest] at hlive
      rw [hpost] at hlive'
      exact ⟨cs, _, [], h', hlive, hlive', nofun⟩
    case isFalse hin =>
      rw [if_neg hin] at hpost
      obtain ⟨rfl, -⟩ := hpost
      cases hend : e.isEnd with
      | true =>
        rw [hend, if_pos rfl] at hcond hlive
        rw [hcond] at hlive'
        exact ⟨cs, _, [], h', hlive, hlive', nofun⟩
      | false =>
        rw [hend, if_neg Bool.false_ne_true] at hcond hlive
        exact ⟨cs, _, _, h', hlive, hlive', hcond⟩
  | grown _ h' hpre hnew hpost =>
    have hlive' : live (dirSlots fs d' (cs ++ [p])) =
        live (dirSlots fs d cs) ++ [⟨newRecord raw, p, off⟩] := by
      rw [hnew, live_append_of_not_free hpre, live_cons_newRecord hraw h0 hE5, hpost]
    exact ⟨_, _, [], h', (List.append_nil _).symm, hlive', nofun⟩

/-- `create` loses no entry exactly when `KeepsAll` held before. -/
theorem create_losesNothing_iff (hfits : fs.Fits d.capacity)
    (hchain : DirChain fs d node.firstCluster cs) (hname : to83 name = some raw)
    (hrun : node.create fs fuel name d = .ok n d') :
    LosesNothing fs d d' node raw ↔ KeepsAll fs d cs raw := by
  obtain ⟨raw', p, off, d₁, hcreated⟩ := (create_sat hfits hchain).of_ok hrun
  obtain rfl : raw = raw' := Option.some.inj (hname.symm.trans hcreated.name83)
  have hraw := length_to83 hname
  have h : Readable fs d node cs := ⟨hfits, hchain, hcreated.isDir⟩
  have hshows := hcreated.shows hfits hchain
  constructor
  · intro hlose
    cases hshows with
    | nowhere hcs h' =>
      subst hcs
      have hlen : 0 = 0 + 1 := hlose.length_live h h'
      exact absurd hlen (by decide)
    | slot hne h' hold hpre he hnew hp _ hpost =>
      exact hlose.keepsAll hne h h' hraw hold hpre he hnew hp hpost
    | grown hne h' hpre hnew hpost =>
      rw [KeepsAll, List.dropWhile_eq_nil_iff.2 fun x hx => by rw [hpre x hx]; rfl]
      obtain ⟨h0, hE5⟩ := hlose.visible h h' hraw [] hpre (List.append_nil _).symm hnew
      exact ⟨hne, h0, hE5, trivial⟩
  · intro hkeep
    obtain ⟨cs', l, q, h', hlive, hlive', hq⟩ := hshows.inserted hraw hkeep
    exact losesNothing_of_live h h' hlive hlive' rfl hq

end

/-! ## Two root directories -/

/-- The 8.3 name of a name of one letter. -/
def oneLetter (b : UInt8) : List UInt8 := b :: List.replicate 10 0x20

/-- The slots of a directory of one cluster. -/
theorem dirSlots_singleton {fs : Fat32Fs} {d : Disk} {c : ℕ} :
    dirSlots fs d [c] = slotsOf fs (cluster fs d c) c := List.append_nil _

/-- A root directory of one cluster. -/
def rootDisk (records : List (List UInt8)) : Disk := smallDisk [(2, 0x0FFFFFFF, smallRows records)]

section
variable {records : List (List UInt8)} (hlen : (smallRows records).length = 512)

include hlen

/-- The root directory of the small drive is readable. -/
theorem rootDisk_readable : Readable smallFs (rootDisk records) smallFs.root [2] := by
  have hl : ∀ e ∈ [(2, 0x0FFFFFFF, smallRows records)], 2 ≤ e.1 ∧ e.1 < 128 ∧ e.2.2.length = 512 :=
    List.forall_mem_singleton.2 ⟨le_rfl, show 2 < 128 by decide, hlen⟩
  refine ⟨?_, .inr (.last (by decide) ?_), rfl⟩
  · rw [rootDisk, smallDisk_capacity hl]
    exact smallFs_fits
  · rw [rootDisk, next_smallDisk hl (by decide)]
    show Eoc (0x0FFFFFFF % 2 ^ 28)
    decide

/-- The slots of the small drive's root directory. -/
theorem dirSlots_rootDisk :
    dirSlots smallFs (rootDisk records) [2] = slotsOf smallFs (smallRows records) 2 := by
  rw [dirSlots_singleton, rootDisk, cluster_smallDisk (List.forall_mem_singleton.2
    ⟨le_rfl, show 2 < 128 by decide, hlen⟩) (by decide)]
  rfl

end

/-- The file `b` and, behind it, a deleted entry. -/
def usedRecords : List (List UInt8) :=
  [record (oneLetter 0x42) 0x20 0 0, 0xE5 :: List.replicate 31 0]

/-- The records of the directory in use fill its sector. -/
theorem usedRecords_rows : (smallRows usedRecords).length = 512 :=
  length_smallRows usedRecords (by decide) (by decide)

/-- The root directory with `b` and a deleted entry gets the name, and nothing is lost. -/
theorem create_losesNothing_used : ∃ n d',
    smallFs.root.create smallFs 1 "a" (rootDisk usedRecords) = .ok n d' ∧
      LosesNothing smallFs (rootDisk usedRecords) d' smallFs.root (oneLetter 0x41) := by
  have hlen := usedRecords_rows
  have hread := rootDisk_readable hlen
  have hslots := dirSlots_rootDisk hlen
  rcases create_run 1 hread.fits hread.chain hread.isDir
    (show to83 "a" = some (oneLetter 0x41) by decide) (by rw [hslots]; decide) with
    ⟨n, d', p, off, d₁, hrun, -⟩ | ⟨hnone, -⟩ | ⟨hlt, -⟩
  · refine ⟨n, d', hrun, (create_losesNothing_iff hread.fits hread.chain (by decide) hrun).2 ?_⟩
    rw [KeepsAll, hslots]
    exact ⟨by decide, by decide, by decide, .inr (by decide)⟩
  · rw [hslots] at hnone
    exact absurd hnone (by decide)
  · exact absurd hlt (by decide)

/-- A deleted slot before an entry: `create` puts the new record there, and the end mark after it
hides the entry. -/
theorem create_hides_entry : ∃ n d', smallFs.root.create smallFs 1 "a"
    (rootDisk [0xE5 :: List.replicate 31 0, record (oneLetter 0x42) 0x20 0 0]) = .ok n d' ∧
      ¬ LosesNothing smallFs
        (rootDisk [0xE5 :: List.replicate 31 0, record (oneLetter 0x42) 0x20 0 0]) d'
        smallFs.root (oneLetter 0x41) := by
  have hlen := length_smallRows ([0xE5 :: List.replicate 31 0,
    record (oneLetter 0x42) 0x20 0 0]) (by decide) (by decide)
  have hread := rootDisk_readable hlen
  have hslots := dirSlots_rootDisk hlen
  rcases create_run 1 hread.fits hread.chain hread.isDir
    (show to83 "a" = some (oneLetter 0x41) by decide) (by rw [hslots]; decide) with
    ⟨n, d', p, off, d₁, hrun, hcreated⟩ | ⟨hnone, -⟩ | ⟨hlt, -⟩
  · refine ⟨n, d', hrun, fun hlose => ?_⟩
    cases hcreated.shows hread.fits hread.chain with
    | nowhere hcs => cases hcs
    | grown _ _ hpre =>
      rw [hslots] at hpre
      exact absurd (hpre _ List.mem_cons_self) (by decide)
    | @slot e pre post post' hne h' hold hpre he hnew hp hoff hpost =>
      have hkeep := hlose.keepsAll hne hread h' (by decide) hold hpre he hnew hp hpost
      rw [KeepsAll, hslots] at hkeep
      obtain ⟨-, -, -, hend | hnil⟩ := hkeep
      · exact absurd hend (by decide)
      · exact absurd hnil (by decide)
  · rw [hslots] at hnone
    exact absurd hnone (by decide)
  · exact absurd hlt (by decide)

end Fat

end RossOs
