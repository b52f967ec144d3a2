import RossOs.Fat.Halting
import RossOs.Fat.Uses

/-!
# The reserved cluster numbers

The numbers 0 and 1 name no cluster. The scans of a directory and the reads of a file look at the
number before they use it. `write` does not, and `find_free_slot` links a new cluster after the
first cluster of a directory that has none: `SafeWrite` and `SafeCreate` say when that is harmless,
and in a run of requests that meet them no reserved number is used.
-/

namespace RossOs

open ByteMem Ahci Exec

namespace Fat

/-- The number of a data cluster is used. -/
def Use.Data (u : Use) : Prop := 2 ≤ u.cluster

/-- All uses are of data clusters. -/
def Clean (l : List Use) : Prop := ∀ u ∈ l, u.Data

/-- A log without uses is clean. -/
theorem clean_nil : Clean [] := fun _ hu => absurd hu List.not_mem_nil

/-! ## Scans and reads -/

section
variable {fs : Fat32Fs} {c : ℕ} {d : Disk} {l : List Use}

/-- `read_cluster` of a data cluster uses that one. -/
theorem notes_readCluster (hc : 2 ≤ c) (hl : Clean l) (buf : List UInt8) :
    Notes Use.Data (fun _ _ => True) (Uses.readCluster fs c buf (d, l)) :=
  Notes.noted hc hl fun _ hl' => Notes.quiet hl' (Sat.trivial _)

/-- `write_cluster` of a data cluster uses that one. -/
theorem notes_writeCluster (hc : 2 ≤ c) (hl : Clean l) (buf : List UInt8) :
    Notes Use.Data (fun _ _ => True) (Uses.writeCluster fs c buf (d, l)) :=
  Notes.noted hc hl fun _ hl' => Notes.quiet hl' (Sat.trivial _)

/-- `set_fat_entry` of a data cluster uses that one. -/
theorem notes_setFatEntry (hc : 2 ≤ c) (hl : Clean l) (value : ℕ) :
    Notes Use.Data (fun _ _ => True) (Uses.setFatEntry fs c value (d, l)) :=
  Notes.noted hc hl fun _ hl' => Notes.quiet hl' (Sat.trivial _)

/-- Reading a data cluster and writing it back uses that one. -/
theorem notes_modifyCluster (hc : 2 ≤ c) (hl : Clean l) (g : List UInt8 → List UInt8) :
    Notes Use.Data (fun _ _ => True) (Uses.modifyCluster fs c g (d, l)) :=
  (notes_readCluster hc hl _).bind fun _ _ hl' _ => notes_writeCluster hc hl' _

/-- `next_cluster` uses no cluster number and gives the link. -/
theorem notes_nextCluster (hl : Clean l) (hlt : c < 2 ^ 32) :
    Notes Use.Data (fun x d' => d' = d ∧ fatSector fs 0 c < d.capacity ∧ x = next fs d c)
      (quiet (nextCluster fs c) (d, l)) :=
  Notes.quiet hl (nextCluster_sat hlt)

/-- A file is read from data clusters. -/
theorem notes_readChainFrom (left : ℕ) (out : List UInt8) (hl : Clean l) :
    Notes Use.Data (fun _ _ => True) (Uses.readChainFrom fs c left out (d, l)) := by
  induction left using Nat.strong_induction_on generalizing c d l out with
  | _ left ih =>
    have hpos := fs.clusterSizeBytes_pos
    rw [Uses.readChainFrom]
    refine .ite (fun h => ?_) fun _ => .pure hl trivial
    refine (notes_readCluster h.1 hl _).bind fun part s₁ hl₁ _ => ?_
    refine (Notes.quiet hl₁ (Sat.trivial _)).bind fun next s₂ hl₂ _ => ?_
    exact ih _ (by omega) _ hl₂

/-- `read` uses no reserved number, whatever the chain of the file. -/
theorem notes_read (node : Fat32Node) (offset : ℕ) (buffer : List UInt8) (hl : Clean l) :
    Notes Use.Data (fun _ _ => True) (Uses.read fs node offset buffer (d, l)) := by
  refine .ite (fun _ => .throw _ hl) fun _ => .ite (fun _ => .pure hl trivial) fun _ => ?_
  have hchain : ∀ max, Notes Use.Data (fun _ _ => True)
      (Uses.readChainInto fs node.firstCluster max (d, l)) := fun max =>
    .ite (fun _ => .pure hl trivial) fun _ => notes_readChainFrom _ _ hl
  refine (hchain _).mapErr.bind fun chain s hl' _ => ?_
  exact .ite (fun _ => .pure hl' trivial) fun _ => .pure hl' trivial

/-- The scan of a directory, and what it finds: something the callback returned on a slot of a data
cluster. -/
theorem notes_walkDirFrom {S T : Type} {f : DirEntry → S → Option T × S} {V : T → Prop}
    (hV : ∀ bytes k c s v s', 2 ≤ c → c < 2 ^ 32 → f ⟨bytes, c, k⟩ s = (some v, s') → V v)
    (fuel : ℕ) (s : S) (hl : Clean l) :
    Notes Use.Data (fun r _ => ∀ v ∈ r.1, V v) (Uses.walkDirFrom fs f fuel c s (d, l)) := by
  have hnone : ∀ {s : S} {l : List Use} {d : Disk}, Clean l → Notes Use.Data
      (fun (r : Option T × S) _ => ∀ v ∈ r.1, V v)
      ((pure (none, s) : Exec String (Disk × List Use) (Option T × S)) (d, l)) := by
    intro s l d hl
    exact .pure hl fun v hv => absurd hv (Option.not_mem_none v)
  induction fuel generalizing c s d l with
  | zero =>
    rw [Uses.walkDirFrom]
    exact .ite (fun _ => .throw _ hl) fun _ => hnone hl
  | succ fuel ih =>
    rw [Uses.walkDirFrom]
    refine .ite (fun hc => ?_) fun _ => hnone hl
    refine (notes_readCluster hc.1 hl _).bind fun buf s₁ hl₁ _ => ?_
    rcases hslots : walkSlots f buf c fs.slots 0 s with ⟨_ | _ | v, s'⟩
    · refine (Notes.quiet hl₁ (Sat.trivial _)).bind fun next s₂ hl₂ _ => ?_
      exact ih _ hl₂
    · exact hnone hl₁
    · obtain ⟨k, s₀, hf⟩ := walkSlots_found hslots
      refine .pure hl₁ fun w hw => ?_
      obtain rfl : v = w := Option.some.inj hw
      exact hV _ k c s₀ v s' hc.1 (by omega) hf

/-- `readdir` uses no reserved number. -/
theorem notes_readdir (fuel : ℕ) (node : Fat32Node) (hl : Clean l) :
    Notes Use.Data (fun _ _ => True) (Uses.readdir fs fuel node (d, l)) := by
  refine .ite (fun _ => .throw _ hl) fun _ => ?_
  have hwalk : Notes Use.Data (fun r _ => ∀ v ∈ r.1, True) (Uses.walkDirFrom fs
      (fun e names => ((none : Option Unit), names ++ [decode83 e.bytes])) fuel node.firstCluster []
      (d, l)) := notes_walkDirFrom (fun _ _ _ _ _ _ _ _ _ => trivial) fuel [] hl
  exact (Notes.mapErr hwalk).bind fun r s hl' _ => .pure hl' trivial

end

/-! ## Nodes that were opened -/

/-- The numbers in a node, as `finddir` and `create` make it: its record is in a data cluster, or it
is the root. -/
structure Fat32Node.Proper (node : Fat32Node) : Prop where
  first : node.firstCluster < 2 ^ 32
  parent : node.parentCluster = 0 ∨ 2 ≤ node.parentCluster ∧ node.parentCluster < 2 ^ 32

section
variable {fs : Fat32Fs} {c : ℕ} {d : Disk} {l : List Use}

/-- The root directory's node holds proper numbers. -/
theorem proper_root (fs : Fat32Fs) : fs.root.Proper where
  first := fs.bpb.rootCluster_lt
  parent := .inl rfl

/-- A node made from an entry in a proper cluster holds proper numbers. -/
theorem proper_nodeOf {bytes : List UInt8} {k : ℕ} (hc : 2 ≤ c) (hlt : c < 2 ^ 32) :
    (nodeOf ⟨bytes, c, k⟩).Proper where
  first := by
    have h := firstClusterOf_lt bytes
    rw [nodeOf]
    split
    · exact h
    · exact h
  parent := by
    rw [parentCluster_nodeOf]
    exact .inr ⟨hc, hlt⟩

/-- `finddir` uses no reserved number. -/
theorem notes_finddir (fuel : ℕ) (node : Fat32Node) (name : String) (hl : Clean l) :
    Notes Use.Data (fun n _ => n.Proper) (Uses.finddir fs fuel node name (d, l)) := by
  refine .ite (fun _ => .throw _ hl) fun _ => ?_
  have hwalk : Notes Use.Data (fun r _ => ∀ n ∈ r.1, n.Proper) (Uses.walkDirFrom fs
      (fun e (s : Unit) => (if nameMatches e.bytes name then some (nodeOf e) else none, s)) fuel
      node.firstCluster () (d, l)) := by
    refine notes_walkDirFrom (fun bytes k c s v s' hc hlt hf => ?_) fuel () hl
    have hv := (Prod.ext_iff.1 hf).1
    simp only [Option.ite_none_right_eq_some, Option.some.injEq] at hv
    rw [← hv.2]
    exact proper_nodeOf hc hlt
  refine (Notes.mapErr hwalk).bind fun found s hl' hfound => ?_
  rcases found with ⟨_ | n, s'⟩
  · exact .throw _ hl'
  · exact .pure hl' (hfound n rfl)

end

/-! ## Allocation -/

/-- `alloc_cluster` does not come to its link: it finds no free cluster, or one that it cannot mark
in every copy of the FAT. -/
def Stuck (fs : Fat32Fs) (d : Disk) : Prop :=
  ∀ c ∈ scanned fs d, ∃ f < fs.bpb.numFats, d.capacity ≤ fatSector fs f c

section
variable {fs : Fat32Fs} {c : ℕ} {d : Disk} {l : List Use}

/-- `alloc_cluster` uses the new cluster and the one it is linked after. -/
theorem notes_allocCluster {prev : Option ℕ} (hl : Clean l)
    (hprev : ∀ p ∈ prev, p < 2 ^ 32 ∧ (2 ≤ p ∨ Stuck fs d)) :
    Notes Use.Data (fun c d' => scanned fs d = some c ∧ ¬ Stuck fs d ∧ d' = allocated fs d prev c)
      (Uses.allocCluster fs prev (d, l)) := by
  have hnotes : Notes Use.Data (fun _ _ => True) (Uses.allocCluster fs prev (d, l)) := by
    have hscan : Notes Use.Data (fun r d' => d' = d ∧ r = scanned fs d)
        (quiet (scanFat fs fs.bpb.fatSizeSectors 0) (d, l)) := .quiet hl scan_sat
    refine hscan.bind fun found s hl₁ hfound => ?_
    obtain ⟨d₁, l₁⟩ := s
    obtain ⟨rfl, rfl⟩ : d₁ = d ∧ found = scanned fs d := hfound
    cases hscan : scanned fs d₁ with
    | none => exact .throw _ hl₁
    | some c =>
      obtain ⟨⟨h2, -⟩, hlt, -⟩ := scanned_some hscan
      have hmark : Notes Use.Data (fun _ _ => ∀ f < fs.bpb.numFats, fatSector fs f c < d₁.capacity)
          (Uses.setFatEntry fs c 0x0FFFFFFF (d₁, l₁)) :=
        .noted h2 hl₁ fun _ hl₂ =>
          .quiet hl₂ ((setFatEntry_sat hlt).mono (fun _ _ h => h.1) fun _ _ he => he)
      refine hmark.bind fun _ s₂ hl₂ hon => ?_
      have hzero : ∀ s : Disk × List Use, Clean s.2 → Notes Use.Data (fun _ _ => True)
          ((Uses.writeCluster fs c (List.replicate fs.clusterSizeBytes 0) >>=
            fun _ => pure c : Exec String (Disk × List Use) ℕ) s) := fun s hs =>
        (notes_writeCluster h2 hs _).bind fun _ _ hl₃ _ => .pure hl₃ trivial
      cases prev with
      | none => exact hzero s₂ hl₂
      | some p =>
        -- the mark was put into every copy, so the link is to a data cluster
        have hp : 2 ≤ p := by
          refine (hprev p rfl).2.resolve_right fun hstuck => ?_
          obtain ⟨f, hf, hoff⟩ := hstuck c hscan
          exact absurd (hon f hf) (Nat.not_lt.2 hoff)
        exact (notes_setFatEntry hp hl₂ c).bind fun _ s₃ hl₃ _ => hzero s₃ hl₃
  refine hnotes.of_sat (Uses.logs_allocCluster fs prev)
    ((allocCluster_sat fun p hp => (hprev p hp).1).mono (fun c d' h => ?_) fun _ _ he => he)
  refine ⟨h.1, fun hstuck => ?_, h.2.2⟩
  obtain ⟨f, hf, hoff⟩ := hstuck c h.1
  exact absurd (h.2.1.mark f hf) (Nat.not_lt.2 hoff)

/-! ## `create` -/

/-- The directory has a first cluster that the new record can be linked after, or nothing is
allocated. -/
def SafeCreate (fs : Fat32Fs) (d : Disk) (node : Fat32Node) (name : String) : Prop :=
  node.isDir = true → (to83 name).isSome → 2 ≤ node.firstCluster ∨ Stuck fs d

/-- The slot is in a data cluster. -/
theorem notes_findFreeSlotFrom (fuel : ℕ) {last : ℕ} (hl : Clean l) (hlt : last < 2 ^ 32)
    (hlast : 2 ≤ last ∨ Stuck fs d) :
    Notes Use.Data (fun r _ => 2 ≤ r.1 ∧ r.1 < 2 ^ 32)
      (Uses.findFreeSlotFrom fs fuel c last (d, l)) := by
  have hnew : ∀ {last l}, last < 2 ^ 32 → 2 ≤ last ∨ Stuck fs d → Clean l → Notes Use.Data
      (fun (r : ℕ × ℕ) _ => 2 ≤ r.1 ∧ r.1 < 2 ^ 32) ((Uses.allocCluster fs (some last) >>=
        fun new => pure (new, 0) : Exec String (Disk × List Use) (ℕ × ℕ)) (d, l)) := by
    intro last l hlt hlast hl
    refine (notes_allocCluster hl fun p hp => ?_).bind fun new s hl' hnew => ?_
    · obtain rfl : last = p := Option.some.inj hp
      exact ⟨hlt, hlast⟩
    · obtain ⟨hin, hlt, -⟩ := scanned_some hnew.1
      exact .pure hl' ⟨hin.1, hlt⟩
  induction fuel generalizing c last l with
  | zero =>
    rw [Uses.findFreeSlotFrom]
    exact .ite (fun _ => .throw _ hl) fun _ => hnew hlt hlast hl
  | succ fuel ih =>
    rw [Uses.findFreeSlotFrom]
    refine .ite (fun hc => ?_) fun _ => hnew hlt hlast hl
    have hclt : c < 2 ^ 32 := by omega
    have hread := Notes.of_sat (Uses.logs_readCluster fs c _) (notes_readCluster hc.1 hl _)
      (readCluster_sat (d := d) hc.1 hclt)
    refine hread.bind fun buf s hl₁ hbuf => ?_
    obtain ⟨d₁, l₁⟩ := s
    obtain rfl : d₁ = d := hbuf.1
    cases freeSlotIn fs buf with
    | some i => exact .pure hl₁ ⟨hc.1, hclt⟩
    | none =>
      refine (notes_nextCluster hl₁ hclt).bind fun next s hl₂ hnext => ?_
      obtain ⟨d₂, l₂⟩ := s
      obtain rfl : d₂ = d₁ := hnext.1
      exact ih hl₂ hclt (.inl hc.1)

/-- `create` on such a directory uses no reserved number. -/
theorem notes_create (fuel : ℕ) {node : Fat32Node} (name : String) (hl : Clean l)
    (hlt : node.firstCluster < 2 ^ 32) (hsafe : SafeCreate fs d node name) :
    Notes Use.Data (fun n _ => n.Proper) (Uses.create fs fuel node name (d, l)) := by
  refine .ite (fun _ => .throw _ hl) fun hdir => ?_
  have hdir : node.isDir = true := by simpa using hdir
  cases hraw : to83 name with
  | none => exact .throw _ hl
  | some raw =>
    have hfirst := hsafe hdir (by rw [hraw]; rfl)
    have hnotes : Notes Use.Data (fun r _ => ∀ v ∈ r.1, True) (Uses.walkDirFrom fs
        (fun e (s : Unit) => (if nameMatches e.bytes name then some () else none, s)) fuel
        node.firstCluster () (d, l)) :=
      notes_walkDirFrom (fun _ _ _ _ _ _ _ _ _ => trivial) fuel () hl
    have hwalk := hnotes.of_sat (Uses.logs_walkDirFrom fs _ fuel _ ())
      ((walkDirFrom_readOnly fs _ fuel node.firstCluster ()).sat d)
    refine hwalk.mapErr.bind fun dup s hl₁ hd => .ite (fun _ => .throw _ hl₁) fun _ => ?_
    obtain ⟨d₁, l₁⟩ := s
    obtain rfl : d₁ = d := hd
    have hslot := notes_findFreeSlotFrom (c := node.firstCluster) fuel hl₁ hlt hfirst
    refine (Notes.mapErr hslot).bind fun slot s hl₂ hin => ?_
    have hput : Notes Use.Data (fun _ _ => True) (Uses.modifyCluster fs slot.1
        (putRecord fs raw slot.2) s) := notes_modifyCluster hin.1 hl₂ _
    refine (Notes.mapErr hput).bind fun _ s' hl₃ _ => .pure hl₃ ?_
    exact ⟨show 0 < 2 ^ 32 by decide, .inr hin⟩

end

/-! ## What a write to a cluster leaves -/

/-- The drive `d'` is `d` with other bytes from the address `a` on. -/
structure Below (a : ℕ) (d d' : Disk) : Prop where
  capacity : d'.capacity = d.capacity
  bytes : ∀ x < a, d'.bytes x = d.bytes x

/-- A drive agrees with itself below every address. -/
theorem Below.refl (a : ℕ) (d : Disk) : Below a d d := ⟨rfl, fun _ _ => rfl⟩

/-- Agreement below an address, over two changes. -/
theorem Below.trans {a a' : ℕ} {d d' d'' : Disk} (h : Below a d d') (h' : Below a' d' d'')
    (ha : a ≤ a') : Below a d d'' :=
  ⟨h'.capacity.trans h.capacity, fun x hx =>
    (h'.bytes x (hx.trans_le ha)).trans (h.bytes x hx)⟩

section
variable {fs : Fat32Fs} {c x m n : ℕ} {d d' : Disk}

/-- A write leaves everything below its first sector. -/
theorem writeSectors_below {lba : ℕ} (hlba : lba < 2 ^ 48) (count : ℕ) (buf : List UInt8) :
    Sat (writeSectors lba count buf d) (fun _ d' => Below (512 * lba) d d') fun _ _ => True := by
  rw [writeSectors]
  refine Sat.ite (fun _ => sat_ok.2 (.refl _ _)) fun _ => ?_
  refine Sat.ite (fun _ => sat_error.2 trivial) fun _ => ?_
  refine Sat.ite (fun _ => sat_error.2 trivial) fun _ => ?_
  rw [Exec.bind_of_ok (Exec.get_apply d), fisLba_commandFis, Nat.mod_eq_of_lt hlba]
  refine Sat.ite (fun _ => sat_ok.2 ⟨rfl, fun x hx => ?_⟩) fun _ => sat_error.2 trivial
  exact write_apply_of_outside (.inl hx)

/-- The write loop leaves everything below its first sector. -/
theorem writeChunks_below (rem : ℕ) {sec : ℕ} (off : ℕ) (buf : List UInt8)
    (hsec : sec + rem ≤ 2 ^ 48) :
    Sat (writeChunks rem sec off buf d) (fun _ d' => Below (512 * sec) d d') fun _ _ => True := by
  induction rem using Nat.strong_induction_on generalizing sec off d with
  | _ rem ih =>
    rw [writeChunks]
    refine Sat.ite (fun _ => sat_ok.2 (.refl _ _)) fun hrem => ?_
    refine Sat.ite (fun _ => ?_) fun _ => sat_error.2 trivial
    refine Sat.bind ((writeSectors_below (by omega) _ _).mono (fun _ d₁ h₁ => ?_) fun _ _ h => h)
    refine (ih (rem - min rem 8) (by omega) _ (by omega)).mono (fun _ d₂ h₂ => ?_) fun _ _ h => h
    exact h₁.trans h₂ (by omega)

/-- Changing a cluster leaves everything before the data area. -/
theorem modifyCluster_below (hc : 2 ≤ c) (hlt : c < 2 ^ 32) (g : List UInt8 → List UInt8) :
    Sat (modifyCluster fs c g d) (fun _ d' => Below (512 * fs.dataStart) d d')
      fun _ _ => True := by
  refine Sat.bind ((readCluster_sat hc hlt).mono (fun buf d₁ hread => ?_) fun _ _ _ => trivial)
  obtain ⟨rfl, -, -⟩ := hread
  rw [writeCluster, Exec.bind_of_ok (clusterToSector_run hc)]
  refine (writeChunks_below _ _ _ (dataSector_add_lt hlt).le).mono (fun _ d₂ h => ?_)
    fun _ _ h => h
  exact (Below.refl _ _).trans h (Nat.mul_le_mul_left 512 (Nat.le_add_right _ _))

/-- The links that are stored before the data area. -/
theorem Below.next_eq (h : Below (512 * fs.dataStart) d d')
    (hx : fatSector fs 0 x < fs.dataStart) : next fs d' x = next fs d x := by
  have haddr : fatAddr fs 0 x + 4 ≤ 512 * fs.dataStart := by
    rw [fatSector] at hx
    rw [fatAddr]
    omega
  rw [next, next, fat, fat, read_congr fun i hi => h.bytes _ (by omega)]

/-! ## `write` -/

/-- A new cluster gets a mark at the end of its chain: there is a copy of the FAT, and the numbers
of clusters fit 32 bits. -/
def Linkable (fs : Fat32Fs) : Prop := 1 ≤ fs.bpb.numFats ∧ fs.bpb.fatSizeSectors ≤ 2 ^ 25

/-- The write of data goes over `m` links from the cluster `c`: each is stored before the data area,
where the data does not change it, and leads to a data cluster or is an end mark. -/
def Writable (fs : Fat32Fs) (d : Disk) : (m c : ℕ) → Prop
  | 0, c => 2 ≤ c
  | m + 1, c => 2 ≤ c ∧ (fatSector fs 0 c < d.capacity → fatSector fs 0 c < fs.dataStart ∧
      if Eoc (next fs d c) then fs.bpb.fatSizeSectors ≤ 2 ^ 25 ∨ m = 0
      else Writable fs d m (next fs d c))

/-- The seek goes over `n` links from the cluster `c`, and the write of data over `m` more. -/
def Seekable (fs : Fat32Fs) (d : Disk) (m : ℕ) : (n c : ℕ) → Prop
  | 0, c => Writable fs d m c
  | n + 1, c => fatSector fs 0 c < d.capacity →
      if Eoc (next fs d c) then Stuck fs d ∨ 2 ≤ c ∧ (Linkable fs ∨ n = 0 ∧ m = 0)
      else Seekable fs d m n (next fs d c)

/-- The write of data starts in a data cluster. -/
theorem Writable.two_le (h : Writable fs d m c) : 2 ≤ c := by
  cases m with
  | zero => exact h
  | succ m => exact h.1

/-- What lies in the data area does not matter for the links the write goes over. -/
theorem Writable.below (h : Writable fs d m c) (hd : Below (512 * fs.dataStart) d d') :
    Writable fs d' m c := by
  induction m generalizing c with
  | zero => exact h
  | succ m ih =>
    refine ⟨h.1, fun hon => ?_⟩
    obtain ⟨hfat, hlink⟩ := h.2 (hd.capacity ▸ hon)
    refine ⟨hfat, ?_⟩
    rw [hd.next_eq hfat]
    split
    case isTrue heoc => rwa [if_pos heoc] at hlink
    case isFalse heoc =>
      rw [if_neg heoc] at hlink
      exact ih hlink

/-- A FAT entry lies below the data area. -/
theorem fatSector_lt_dataStart (hcopies : 1 ≤ fs.bpb.numFats) (hc : c < fs.entries) :
    fatSector fs 0 c < fs.dataStart := by
  have hsec := entrySector_lt hcopies hc
  rw [fatSector]
  omega

/-- From the end of a chain. -/
theorem writable_of_eoc (hlink : Linkable fs) (hc : fs.InRange c) (heoc : Eoc (next fs d c))
    (m : ℕ) : Writable fs d m c := by
  cases m with
  | zero => exact hc.1
  | succ m =>
    refine ⟨hc.1, fun _ => ⟨fatSector_lt_dataStart hlink.1 hc.2, ?_⟩⟩
    rw [if_pos heoc]
    exact .inl hlink.2

/-- At the end of a chain the seek has clusters to allocate only. -/
theorem seekable_of_eoc (hlink : Linkable fs) (hc : fs.InRange c) (heoc : Eoc (next fs d c))
    (m n : ℕ) : Seekable fs d m n c := by
  cases n with
  | zero => exact writable_of_eoc hlink hc heoc m
  | succ n =>
    intro _
    rw [if_pos heoc]
    exact .inr ⟨hc.1, .inl hlink⟩

/-- The new cluster is the end of its chain. -/
theorem eoc_allocated {prev : Option ℕ} (hlink : Linkable fs) (hscan : scanned fs d = some c)
    (hprev : ∀ p ∈ prev, Eoc (next fs d p)) : Eoc (next fs (allocated fs d prev c) c) := by
  obtain ⟨hin, -, -, hfree⟩ := scanned_some hscan
  rw [next_allocated_first hlink.1 hin.2, if_neg, if_pos rfl]
  · decide
  · intro hp
    have h0 := hprev c hp
    rw [hfree hlink.2] at h0
    exact absurd h0 (by decide)

end

section
variable {fs : Fat32Fs} {c m n : ℕ} {d : Disk} {l : List Use}

/-- The cluster that is allocated after the end of a chain. -/
theorem notes_allocAfter (hl : Clean l) (hlt : c < 2 ^ 32) (hc : 2 ≤ c ∨ Stuck fs d)
    (heoc : Eoc (next fs d c)) :
    Notes Use.Data (fun x d' => 2 ≤ x ∧ x < 2 ^ 32 ∧ ¬ Stuck fs d ∧
        (Linkable fs → fs.InRange x ∧ Eoc (next fs d' x)))
      (Uses.allocCluster fs (some c) (d, l)) := by
  refine (notes_allocCluster hl fun p hp => ?_).mono fun x d' h => ?_
  · obtain rfl : c = p := Option.some.inj hp
    exact ⟨hlt, hc⟩
  · obtain ⟨hscan, hstuck, rfl⟩ := h
    obtain ⟨hin, hxlt, -⟩ := scanned_some hscan
    refine ⟨hin.1, hxlt, hstuck, fun hlink => ⟨hin, eoc_allocated hlink hscan fun p hp => ?_⟩⟩
    obtain rfl : c = p := Option.some.inj hp
    exact heoc

/-- A FAT entry is a 32-bit number. -/
theorem next_lt (fs : Fat32Fs) (d : Disk) (c : ℕ) : next fs d c < 2 ^ 32 := by
  rw [next]
  omega

/-- The step of `write` over a link, while it writes data. -/
theorem notes_nextOrAlloc (hl : Clean l) (hlt : c < 2 ^ 32) (h : Writable fs d (m + 1) c) :
    Notes Use.Data (fun x d' => x < 2 ^ 32 ∧ Writable fs d' m x)
      (Uses.nextOrAlloc fs c (d, l)) := by
  refine (notes_nextCluster hl hlt).bind fun x s hl' hx => ?_
  obtain ⟨d₁, l₁⟩ := s
  obtain ⟨rfl, hon, rfl⟩ := hx
  obtain ⟨hfat, hlink⟩ := h.2 hon
  refine .ite (fun (heoc : Eoc _) => ?_) fun (heoc : ¬ Eoc _) => ?_
  · rw [if_pos heoc] at hlink
    refine (notes_allocAfter hl' hlt (.inl h.1) heoc).mono fun x d' hx => ⟨hx.2.1, ?_⟩
    rcases hlink with hsize | rfl
    · have hcopies : 1 ≤ fs.bpb.numFats := by
        refine Nat.pos_of_ne_zero fun h0 => ?_
        rw [fatSector, Fat32Fs.dataStart, h0] at hfat
        omega
      obtain ⟨hin, heoc'⟩ := hx.2.2.2 ⟨hcopies, hsize⟩
      exact writable_of_eoc ⟨hcopies, hsize⟩ hin heoc' m
    · exact hx.1
  · rw [if_neg heoc] at hlink
    exact .pure hl' ⟨next_lt fs d₁ c, hlink⟩

/-- The loop of `write` over the data. -/
theorem notes_writeData (data : List UInt8) (off written : ℕ) (hoff : off < fs.clusterSizeBytes)
    (hl : Clean l) (hlt : c < 2 ^ 32) (h : Writable fs d m c)
    (hm : off + (data.length - written) ≤ (m + 1) * fs.clusterSizeBytes) :
    Notes Use.Data (fun _ _ => True) (Uses.writeData fs data c off written hoff (d, l)) := by
  induction hk : data.length - written using Nat.strong_induction_on
    generalizing c off written d l m with
  | _ k ih =>
    rw [Uses.writeData]
    refine .ite (fun hw => ?_) fun _ => .pure hl trivial
    have hput := (notes_modifyCluster (d := d) h.two_le hl _).of_sat
      (Uses.logs_modifyCluster fs c fun buf => splice buf off
        (slice data written (min (data.length - written) (fs.clusterSizeBytes - off))))
      (modifyCluster_below h.two_le hlt _)
    refine hput.bind fun _ s hl₁ hbelow => ?_
    refine .ite (fun hmore => ?_) fun _ => .pure hl₁ trivial
    -- the data goes on behind this cluster, so there is a link left
    obtain ⟨m, rfl⟩ : ∃ k, m = k + 1 := by
      refine Nat.exists_eq_succ_of_ne_zero fun h0 => ?_
      rw [h0, Nat.zero_add, Nat.one_mul] at hm
      omega
    refine (notes_nextOrAlloc hl₁ hlt (h.below hbelow)).bind fun x s' hl₂ hx => ?_
    refine ih _ (by omega) 0 _ _ hl₂ hx.1 hx.2 ?_ rfl
    rw [Nat.succ_mul] at hm
    omega

/-- The loop of `write` to the cluster of the offset. -/
theorem notes_seekCluster (n : ℕ) (hl : Clean l) (hlt : c < 2 ^ 32) (h : Seekable fs d m n c) :
    Notes Use.Data (fun x d' => x < 2 ^ 32 ∧ Writable fs d' m x)
      (Uses.seekCluster fs n c (d, l)) := by
  induction n generalizing c d l with
  | zero => exact .pure hl ⟨hlt, h⟩
  | succ n ih =>
    have hstep : Notes Use.Data (fun x d' => x < 2 ^ 32 ∧ Seekable fs d' m n x)
        (Uses.nextOrAlloc fs c (d, l)) := by
      refine (notes_nextCluster hl hlt).bind fun x s hl' hx => ?_
      obtain ⟨d₁, l₁⟩ := s
      obtain ⟨rfl, hon, rfl⟩ := hx
      have hlink := h hon
      refine .ite (fun (heoc : Eoc _) => ?_) fun (heoc : ¬ Eoc _) => ?_
      · rw [if_pos heoc] at hlink
        refine (notes_allocAfter hl' hlt (hlink.symm.imp_left And.left) heoc).mono
          fun x d' hx => ⟨hx.2.1, ?_⟩
        rcases (hlink.resolve_left hx.2.2.1).2 with hlinkable | ⟨rfl, rfl⟩
        · obtain ⟨hin, heoc'⟩ := hx.2.2.2 hlinkable
          exact seekable_of_eoc hlinkable hin heoc' m n
        · exact hx.1
      · rw [if_neg heoc] at hlink
        exact .pure hl' ⟨next_lt fs d₁ c, hlink⟩
    exact hstep.bind fun x s hl' hx => ih hl' hx.1 hx.2

end

/-- `write` uses data clusters only: from a file without a first cluster it allocates one, and else
it follows the chain over the clusters before the data and the clusters of the data. -/
def SafeWrite (fs : Fat32Fs) (d : Disk) (node : Fat32Node) (offset : ℕ)
    (data : List UInt8) : Prop :=
  let n := offset / fs.clusterSizeBytes
  let m := (offset % fs.clusterSizeBytes + data.length - 1) / fs.clusterSizeBytes
  node.isDir = false → data ≠ [] → offset + data.length < 2 ^ 64 →
    if node.firstCluster < 2 then Stuck fs d ∨ Linkable fs ∨ n = 0 ∧ m = 0
    else Seekable fs d m n node.firstCluster

section
variable {fs : Fat32Fs} {h : Handle} {l : List Use} {offset m n : ℕ} {data : List UInt8}

/-- The uses of a call on the drive are those of the call on the handle. -/
theorem notes_onDisk {α : Type} {Q : α → Disk → Prop} {y : Exec String (Disk × List Use) α}
    {s : Handle × List Use} (hy : Notes Use.Data Q (y (s.1.disk, s.2))) :
    Notes Use.Data (fun a h' => h'.node = s.1.node ∧ Q a h'.disk) (Uses.onDisk y s) :=
  Notes.mapErr (Notes.zoom hy fun _ _ hq => ⟨rfl, hq⟩)

/-- After the first part of `write` there is a chain to follow. -/
theorem notes_ensureFirstCluster (hl : Clean l) (hnode : h.node.Proper)
    (hsafe : if h.node.firstCluster < 2 then Stuck fs h.disk ∨ Linkable fs ∨ n = 0 ∧ m = 0
      else Seekable fs h.disk m n h.node.firstCluster) :
    Notes Use.Data (fun _ h' => h'.node.firstCluster < 2 ^ 32 ∧
        Seekable fs h'.disk m n h'.node.firstCluster)
      (Uses.ensureFirstCluster fs (h, l)) := by
  refine (Notes.get (h, l) hl).bind fun h₁ s hl₁ hget => ?_
  obtain ⟨h₂, l₁⟩ := s
  obtain ⟨rfl, rfl⟩ : h = h₁ ∧ h = h₂ := ⟨hget.1.symm, hget.2.symm⟩
  refine .ite (fun hfirst => ?_) fun hfirst => ?_
  · rw [if_pos hfirst] at hsafe
    have hnone : ∀ p ∈ (none : Option ℕ), p < 2 ^ 32 ∧ (2 ≤ p ∨ Stuck fs h.disk) :=
      fun p hp => absurd hp (Option.not_mem_none p)
    refine (notes_onDisk (notes_allocCluster hl₁ hnone)).bind fun c s hl₂ halloc => ?_
    obtain ⟨h₂, l₂⟩ := s
    obtain ⟨hnode₂, hscan, hstuck, hdisk₂⟩ := halloc
    obtain ⟨hin, hlt, -⟩ := scanned_some hscan
    -- wherever the drive is the new one up to the data area, there is a chain to follow
    have hseek : ∀ d, Below (512 * fs.dataStart) h₂.disk d → Seekable fs d m n c := by
      intro d hd
      rcases hsafe.resolve_left hstuck with hlink | ⟨rfl, rfl⟩
      · refine seekable_of_eoc hlink hin ?_ m n
        rw [hd.next_eq (fatSector_lt_dataStart hlink.1 hin.2), hdisk₂]
        exact eoc_allocated hlink hscan fun p hp => absurd hp (Option.not_mem_none p)
      · exact hin.1
    refine (Notes.modify _ hl₂).bind fun _ s hl₃ hset => ?_
    obtain ⟨h₃, l₃⟩ := s
    obtain rfl : h₃ = _ := hset
    refine .ite (fun hparent => ?_) fun _ => .pure hl₃ ⟨hlt, hseek _ (.refl _ _)⟩
    obtain ⟨hp, hplt⟩ := hnode.parent.resolve_left hparent
    have hput := (notes_modifyCluster (d := h₂.disk) hp hl₃ _).of_sat
      (Uses.logs_modifyCluster fs h.node.parentCluster _)
      (modifyCluster_below hp hplt fun buf =>
        let o := h.node.dirEntryOffset
        splice (splice buf (o + 0x14) (toLe 2 (c >>> 16))) (o + 0x1A) (toLe 2 c))
    refine (notes_onDisk hput).mono fun _ h₄ hbelow => ?_
    rw [hbelow.1]
    exact ⟨hlt, hseek _ hbelow.2⟩
  · rw [if_neg hfirst] at hsafe
    exact .pure hl₁ ⟨hnode.first, hsafe⟩

/-- `write` on such a file uses no reserved number. -/
theorem notes_write (hl : Clean l) (hnode : h.node.Proper)
    (hsafe : SafeWrite fs h.disk h.node offset data) :
    Notes Use.Data (fun _ _ => True) (Uses.write fs offset data (h, l)) := by
  refine (Notes.get (h, l) hl).bind fun h₁ s hl₁ hget => ?_
  obtain ⟨h₂, l₁⟩ := s
  obtain ⟨rfl, rfl⟩ : h = h₁ ∧ h = h₂ := ⟨hget.1.symm, hget.2.symm⟩
  refine .ite (fun _ => .throw _ hl₁) fun hfile => .ite (fun _ => .throw _ hl₁) fun hsum => ?_
  obtain ⟨hdir, hdata⟩ := not_or.1 hfile
  have hsafe := hsafe (Bool.eq_false_iff.2 hdir) hdata (Nat.lt_of_not_le hsum)
  refine (notes_ensureFirstCluster hl₁ hnode hsafe).bind fun _ s hl₂ hfirst => ?_
  refine (Notes.get s hl₂).bind fun h₂ s₂ hl₃ hget => ?_
  obtain ⟨rfl, hs₂⟩ := hget
  rw [← hs₂] at hfirst ⊢
  have hpos := fs.clusterSizeBytes_pos
  refine (notes_onDisk (notes_seekCluster _ hl₃ hfirst.1 hfirst.2)).bind fun c s₃ hl₄ hc => ?_
  refine Notes.bind (notes_onDisk (notes_writeData data _ _ _ hl₄ hc.2.1 hc.2.2 ?_))
    fun written s₄ hl₅ _ => ?_
  · have hlt := Nat.lt_mul_div_succ (offset % fs.clusterSizeBytes + data.length - 1) hpos
    rw [Nat.sub_zero, Nat.mul_comm]
    omega
  refine .ite (fun _ => ?_) fun _ => .pure hl₅ trivial
  refine (Notes.modify _ hl₅).bind fun _ s₅ hl₆ _ => ?_
  refine Notes.bind (notes_onDisk (Q := fun _ _ => True) ?_) fun _ _ hl₇ _ => .pure hl₇ trivial
  refine .ite (fun _ => .pure hl₆ trivial) fun hparent => ?_
  exact notes_modifyCluster (hnode.parent.resolve_left hparent).1 hl₆ _

/-- However `write` ends, the numbers in the node are those of a node that was opened. -/
theorem write_proper (hnode : h.node.Proper) :
    Sat (Fat.write fs offset data h) (fun _ h' => h'.node.Proper) fun _ h' => h'.node.Proper := by
  have honDisk : ∀ {α : Type} (x : Exec String Disk α) (h₁ : Handle), h₁.node.Proper →
      Sat (onDisk x h₁) (fun _ h' => h'.node.Proper) fun _ h' => h'.node.Proper := by
    intro α x h₁ hp
    refine (onDisk_sat (Sat.trivial (x h₁.disk))).mono (fun _ h' hh => ?_) fun _ h' hh => ?_
    · obtain ⟨d', rfl, -⟩ := hh
      exact hp
    · obtain ⟨-, d', -, rfl, -⟩ := hh
      exact hp
  refine Sat.bind (sat_ok.2 ?_)
  refine Sat.ite (fun _ => sat_error.2 hnode) fun _ => ?_
  refine Sat.ite (fun _ => sat_error.2 hnode) fun _ => ?_
  have hfirst : Sat (ensureFirstCluster fs h) (fun _ h' => h'.node.Proper)
      fun _ h' => h'.node.Proper := by
    refine Sat.bind (sat_ok.2 ?_)
    refine Sat.ite (fun _ => ?_) fun _ => sat_ok.2 hnode
    refine Sat.bind ((onDisk_sat (allocCluster_returns none h.disk)).mono (fun c h₁ hc => ?_)
      fun _ h₁ he => ?_)
    · obtain ⟨d₁, rfl, -, hlt⟩ := hc
      refine Sat.bind (sat_ok.2 ?_)
      have hp : ({ h.node with firstCluster := c } : Fat32Node).Proper := ⟨hlt, hnode.parent⟩
      exact Sat.ite (fun _ => honDisk _ _ hp) fun _ => sat_ok.2 hp
    · obtain ⟨-, d₁, -, rfl, -⟩ := he
      exact hnode
  refine Sat.bind (hfirst.mono (fun _ h₁ hp₁ => ?_) fun _ _ he => he)
  refine Sat.bind (sat_ok.2 ?_)
  refine Sat.bind ((honDisk _ _ hp₁).mono (fun c h₂ hp₂ => ?_) fun _ _ he => he)
  refine Sat.bind ((honDisk _ _ hp₂).mono (fun n h₃ hp₃ => ?_) fun _ _ he => he)
  refine Sat.ite (fun _ => ?_) fun _ => sat_ok.2 hp₃
  refine Sat.bind (sat_ok.2 ?_)
  refine Sat.bind ((honDisk _ _ ?_).mono (fun _ _ hp₄ => ?_) fun _ _ he => he)
  · exact ⟨hp₃.first, hp₃.parent⟩
  · exact sat_ok.2 hp₄

end

/-! ## Chains that end with a mark -/

section
variable {fs : Fat32Fs} {d : Disk} {c m : ℕ} {cs : List ℕ}

/-- On a drive with all sectors of the volume, a new cluster gets its mark. -/
theorem Fat32Fs.Fits.linkable {capacity : ℕ} (h : fs.Fits capacity) : Linkable fs := by
  refine ⟨h.copies, ?_⟩
  have hle := h.entries_le
  rw [Fat32Fs.entries_eq] at hle
  omega

/-- The links of a chain lead to data clusters, up to its end mark. -/
theorem FatChain.writable (hfits : fs.Fits d.capacity) (h : FatChain fs d c cs) (m : ℕ) :
    Writable fs d m c := by
  induction h generalizing m with
  | last hc heoc => exact writable_of_eoc hfits.linkable hc heoc m
  | @cons c cs hc hrest ih =>
    cases m with
    | zero => exact hc.1
    | succ m =>
      refine ⟨hc.1, fun _ => ⟨fatSector_lt_dataStart hfits.copies hc.2, ?_⟩⟩
      rw [if_neg (hfits.not_eoc (hrest.mem_in _ hrest.head_mem))]
      exact ih m

/-- So do those that the seek and then the write of data go over. -/
theorem FatChain.seekable (hfits : fs.Fits d.capacity) (h : FatChain fs d c cs) (m n : ℕ) :
    Seekable fs d m n c := by
  induction h generalizing n with
  | last hc heoc => exact seekable_of_eoc hfits.linkable hc heoc m n
  | @cons c cs hc hrest ih =>
    cases n with
    | zero => exact FatChain.writable hfits (.cons hc hrest) m
    | succ n =>
      intro _
      rw [if_neg (hfits.not_eoc (hrest.mem_in _ hrest.head_mem))]
      exact ih n

/-- On a volume that fits its drive, a file whose chain ends with a mark, or that has none, can be
written. -/
theorem DirChain.safeWrite {node : Fat32Node} (hfits : fs.Fits d.capacity)
    (h : DirChain fs d node.firstCluster cs) (offset : ℕ) (data : List UInt8) :
    SafeWrite fs d node offset data := by
  intro _ _ _
  rcases h with ⟨hlt, -⟩ | hchain
  · rw [if_pos hlt]
    exact .inr (.inl hfits.linkable)
  · rw [if_neg (Nat.not_lt.2 (hchain.mem_in _ hchain.head_mem).1)]
    exact hchain.seekable hfits _ _

end

/-! ## Runs of requests -/

/-- A request to the node `i` of those that were opened. -/
structure Ask where
  fuel : ℕ
  i : ℕ
  request : Request

/-- The nodes after a request that opens one. -/
def opened (nodes : List Fat32Node) :
    Outcome Unit (Disk × List Use) Fat32Node → Nodes × List Use
  | .ok n s => (⟨s.1, nodes ++ [n]⟩, s.2)
  | .error _ s => (⟨s.1, nodes⟩, s.2)

/-- A request to a node, and the uses up to it. -/
def ask (fs : Fat32Fs) (s : Nodes × List Use) (a : Ask) : Nodes × List Use :=
  match s.1.nodes[a.i]? with
  | none => s
  | some node =>
    match a.request with
    | .readdir =>
      let t := Outcome.state (Uses.readdir fs a.fuel node (s.1.disk, s.2))
      (⟨t.1, s.1.nodes⟩, t.2)
    | .finddir name => opened s.1.nodes (Uses.finddir fs a.fuel node name (s.1.disk, s.2))
    | .create name => opened s.1.nodes (Uses.create fs a.fuel node name (s.1.disk, s.2))
    | .read offset buffer =>
      let t := Outcome.state (Uses.read fs node offset buffer (s.1.disk, s.2))
      (⟨t.1, s.1.nodes⟩, t.2)
    | .write offset data =>
      let t := Outcome.state (Uses.write fs offset data (⟨node, s.1.disk⟩, s.2))
      (⟨t.1.disk, s.1.nodes.set a.i t.1.node⟩, t.2)

/-- The session that starts with the root of the volume. -/
def session (fs : Fat32Fs) (d : Disk) (l : List Ask) : Nodes × List Use :=
  l.foldl (ask fs) (⟨d, [fs.root]⟩, [])

/-- The request without the log. -/
def request (fs : Fat32Fs) (s : Nodes) (a : Ask) : Nodes :=
  match s.nodes[a.i]? with
  | none => s
  | some node =>
    match a.request with
    | .readdir => { s with disk := Outcome.state (node.readdir fs a.fuel s.disk) }
    | .finddir name => access fs s (.finddir a.fuel node name)
    | .create name =>
      match node.create fs a.fuel name s.disk with
      | .ok n d => ⟨d, s.nodes ++ [n]⟩
      | .error _ d => ⟨d, s.nodes⟩
    | .read offset buffer => { s with disk := Outcome.state (node.read fs offset buffer s.disk) }
    | .write offset data => access fs s (.write a.i offset data)

/-- The requests that use data clusters only. -/
def SafeAsk (fs : Fat32Fs) (s : Nodes × List Use) (a : Ask) : Prop :=
  ∀ node ∈ s.1.nodes[a.i]?, match a.request with
    | .create name => SafeCreate fs s.1.disk node name
    | .write offset data => SafeWrite fs s.1.disk node offset data
    | _ => True

/-- Forgetting the log keeps the state. -/
theorem forget_state {ε σ ω α : Type} (r : Outcome ε (σ × List ω) α) :
    Outcome.state r.forget = (Outcome.state r).1 := by
  cases r <;> rfl

/-- The nodes and the drive of a session are those of the driver. -/
theorem ask_fst (fs : Fat32Fs) (s : Nodes × List Use) (a : Ask) :
    (ask fs s a).1 = request fs s.1 a := by
  obtain ⟨fuel, i, r⟩ := a
  rw [ask, request]
  cases hi : s.1.nodes[i]? with
  | none => rfl
  | some node =>
    cases r with
    | readdir =>
      simp only [← Uses.logs_readdir fs fuel node (s.1.disk, s.2), forget_state]
    | finddir name =>
      simp only [access, ← Uses.logs_finddir fs fuel node name (s.1.disk, s.2)]
      cases Uses.finddir fs fuel node name (s.1.disk, s.2) <;> rfl
    | create name =>
      simp only [← Uses.logs_create fs fuel node name (s.1.disk, s.2)]
      cases Uses.create fs fuel node name (s.1.disk, s.2) <;> rfl
    | read offset buffer =>
      simp only [← Uses.logs_read fs node offset buffer (s.1.disk, s.2), forget_state]
    | write offset data =>
      simp only [access, hi, ← Uses.logs_write fs offset data (⟨node, s.1.disk⟩, s.2)]
      cases Uses.write fs offset data (⟨node, s.1.disk⟩, s.2) <;> rfl

section
variable {fs : Fat32Fs} {s : Nodes × List Use}

/-- The invariant of a session. -/
structure Kempt (s : Nodes × List Use) : Prop where
  nodes : ∀ n ∈ s.1.nodes, n.Proper
  clean : Clean s.2

/-- A lookup that yields a proper node keeps the invariant of the session. -/
theorem kempt_opened {nodes : List Fat32Node} {r : Outcome Unit (Disk × List Use) Fat32Node}
    (hnodes : ∀ n ∈ nodes, n.Proper) (h : Notes Use.Data (fun n _ => n.Proper) r) :
    Kempt (opened nodes r) := by
  cases r with
  | error e t => exact ⟨hnodes, h.of_error rfl⟩
  | ok n t =>
    refine ⟨fun m hm => ?_, (h.of_ok rfl).2⟩
    rcases List.mem_append.1 hm with hm | hm
    · exact hnodes m hm
    · rw [List.mem_singleton.1 hm]
      exact (h.of_ok rfl).1

/-- A safe request keeps the invariant of the session. -/
theorem Kempt.ask (h : Kempt s) {a : Ask} (hsafe : SafeAsk fs s a) : Kempt (Fat.ask fs s a) := by
  obtain ⟨fuel, i, request⟩ := a
  rw [Fat.ask]
  cases hi : s.1.nodes[i]? with
  | none => exact h
  | some node =>
    have hnode := h.nodes node (List.mem_of_getElem? hi)
    cases request with
    | readdir => exact ⟨h.nodes, (notes_readdir fuel node h.clean).state⟩
    | finddir name => exact kempt_opened h.nodes (notes_finddir fuel node name h.clean)
    | create name =>
      have hsafe : SafeCreate fs s.1.disk node name := hsafe node hi
      exact kempt_opened h.nodes (notes_create fuel name h.clean hnode.first hsafe)
    | read offset buffer => exact ⟨h.nodes, (notes_read node offset buffer h.clean).state⟩
    | write offset data =>
      have hsafe : SafeWrite fs s.1.disk node offset data := hsafe node hi
      have hproper : Sat (Uses.write fs offset data (⟨node, s.1.disk⟩, s.2))
          (fun _ t => t.1.node.Proper) fun _ t => t.1.node.Proper :=
        (Uses.logs_write fs offset data).sat (write_proper hnode)
      have hnotes : Notes Use.Data _ (Uses.write fs offset data (⟨node, s.1.disk⟩, s.2)) :=
        notes_write h.clean hnode hsafe
      refine ⟨fun m hm => ?_, hnotes.state⟩
      rcases List.mem_or_eq_of_mem_set hm with hm | rfl
      · exact h.nodes m hm
      · exact hproper.state

/-- In a session whose requests are safe no reserved number is used. -/
theorem reserved_unused {d : Disk} {l : List Ask}
    (h : Run.Guarded (ask fs) (SafeAsk fs) (⟨d, [fs.root]⟩, []) l) :
    ∀ u ∈ (session fs d l).2, 2 ≤ u.cluster := by
  have hstart : Kempt (⟨d, [fs.root]⟩, []) :=
    ⟨fun n hn => List.mem_singleton.1 hn ▸ proper_root fs, clean_nil⟩
  have hend : Kempt (session fs d l) :=
    Run.invariant (fun _ _ hs ha => Kempt.ask hs ha) hstart h
  exact hend.clean

end

/-- A byte into an empty file is a safe request, and uses no reserved number. -/
theorem reserved_unused_empty_file :
    Run.Guarded (ask smallFs) (SafeAsk smallFs) (⟨emptyFileDisk, [smallFs.root]⟩, [])
        [⟨1, 0, .finddir "a"⟩, ⟨0, 1, .write 0 [7]⟩] ∧
      ∀ u ∈ (session smallFs emptyFileDisk [⟨1, 0, .finddir "a"⟩, ⟨0, 1, .write 0 [7]⟩]).2,
        2 ≤ u.cluster := by
  have hsafe : Run.Guarded (ask smallFs) (SafeAsk smallFs) (⟨emptyFileDisk, [smallFs.root]⟩, [])
      [⟨1, 0, .finddir "a"⟩, ⟨0, 1, .write 0 [7]⟩] := by
    refine ⟨fun _ _ => trivial, fun node hnode => ?_, trivial⟩
    have hopen : (ask smallFs (⟨emptyFileDisk, [smallFs.root]⟩, []) ⟨1, 0, .finddir "a"⟩).1 =
        ⟨emptyFileDisk, [smallFs.root, emptyNode]⟩ := by
      rw [ask_fst]
      exact access_finddir smallFs finddir_emptyFileDisk
    rw [hopen] at hnode ⊢
    obtain rfl : emptyNode = node := Option.some.inj hnode
    intro _ _ _
    rw [if_pos (by decide)]
    exact .inr (.inl ⟨le_rfl, by decide⟩)
  exact ⟨hsafe, reserved_unused hsafe⟩

/-! ## A chain that leads to cluster 0 -/

section
variable {α : Type} {y : Exec String (Disk × List Use) α} {s : Handle × List Use} {d : Disk}
  {l : List Use}

/-- A logged call on the drive that returns. -/
theorem onDisk_of_ok {a : α} (hy : y (s.1.disk, s.2) = .ok a (d, l)) :
    Uses.onDisk y s = .ok a (⟨s.1.node, d⟩, l) :=
  Exec.mapErr_of_ok (zoomLog_of_ok hy)

/-- A logged call on the drive that panics. -/
theorem onDisk_of_panic (hy : y (s.1.disk, s.2) = .error .panic (d, l)) :
    Uses.onDisk y s = .error .panic (⟨s.1.node, d⟩, l) :=
  Exec.mapErr_of_error (zoomLog_of_error hy)

end

/-- A write behind a cluster that is linked to the number 0. -/
theorem write_after_zero {fs : Fat32Fs} {h : Handle} {l : List Use} {b : UInt8}
    (hfile : h.node.isDir = false) (hfirst : 2 ≤ h.node.firstCluster)
    (hcb : fs.clusterSizeBytes = 512)
    (hlink : nextCluster fs h.node.firstCluster h.disk = .ok 0 h.disk) :
    Uses.write fs 512 [b] (h, l) = .error .panic (h, l ++ [.sector 0]) := by
  have hget : (quiet get : Exec Unit (Handle × List Use) Handle) (h, l) = .ok h (h, l) := rfl
  have hensure : Uses.ensureFirstCluster fs (h, l) = .ok ⟨⟩ (h, l) := by
    rw [Uses.ensureFirstCluster, Exec.bind_of_ok hget, if_neg (by omega)]
    rfl
  have hseek : Uses.seekCluster fs 1 h.node.firstCluster (h.disk, l) = .ok 0 (h.disk, l) := by
    have hnext : quiet (nextCluster fs h.node.firstCluster) (h.disk, l) = .ok 0 (h.disk, l) :=
      quiet_of_ok hlink
    have hstep : Uses.nextOrAlloc fs h.node.firstCluster (h.disk, l) = .ok 0 (h.disk, l) := by
      rw [Uses.nextOrAlloc, Exec.bind_of_ok hnext, if_neg (by omega)]
      rfl
    rw [Uses.seekCluster, Exec.bind_of_ok hstep]
    rfl
  have hdata : ∀ off hoff, Uses.writeData fs [b] 0 off 0 hoff (h.disk, l) =
      .error .panic (h.disk, l ++ [.sector 0]) := by
    intro off hoff
    rw [Uses.writeData, if_pos (by simp)]
    rfl
  have hseek' : Uses.onDisk (Uses.seekCluster fs 1 h.node.firstCluster) (h, l) = .ok 0 (h, l) :=
    onDisk_of_ok (s := (h, l)) hseek
  have hdata' : ∀ off hoff, Uses.onDisk (Uses.writeData fs [b] 0 off 0 hoff) (h, l) =
      .error .panic (h, l ++ [.sector 0]) := fun off hoff =>
    onDisk_of_panic (s := (h, l)) (hdata off hoff)
  have hdiv : 512 / fs.clusterSizeBytes = 1 := by rw [hcb]
  rw [Uses.write, Exec.bind_of_ok hget, if_neg (by simp [hfile]), if_neg (by simp)]
  simp only
  rw [Exec.bind_of_ok hensure, Exec.bind_of_ok hget, hdiv, Exec.bind_of_ok hseek',
    Exec.bind_of_error (hdata' _ _)]

/-- A volume with one file, of 600 bytes in the cluster 3, which is linked to the number 0. -/
def cutDisk : Disk := bootDisk (rootDisk [record (oneLetter 0x41) 0x20 3 600])

/-- The directory's row fills its sector. -/
theorem cutDisk_rows : (smallRows [record (oneLetter 0x41) 0x20 3 600]).length = 512 :=
  length_smallRows _ (by decide) (by decide)

/-- The node `finddir` gives for the file whose chain is cut. -/
theorem finddir_cutDisk :
    smallFs.root.finddir smallFs 1 "a" cutDisk = .ok (.file 3 600 2 0) cutDisk := by
  have hread := rootDisk_readable cutDisk_rows
  have hslots := dirSlots_rootDisk cutDisk_rows
  have hchain : DirChain smallFs cutDisk smallFs.root.firstCluster [2] :=
    .inr (.last (by decide) (by
      rw [cutDisk, next_bootDisk]
      exact hread.chain.resolve_left (by decide) |>.end_getLast? rfl))
  have hlook : lookup (slotsOf smallFs (smallRows [record (oneLetter 0x41) 0x20 3 600]) 2) "a" =
      some ⟨record (oneLetter 0x41) 0x20 3 600, 2, 0⟩ := by decide +kernel
  rw [← hslots, dirSlots_singleton, ← cluster_bootDisk, ← dirSlots_singleton] at hlook
  have hfits : smallFs.Fits cutDisk.capacity := by
    rw [cutDisk, bootDisk_capacity]
    exact hread.fits
  have hnode : nodeOf ⟨record (oneLetter 0x41) 0x20 3 600, 2, 0⟩ = .file 3 600 2 0 := by
    decide +kernel
  have hfind : smallFs.root.finddir smallFs 1 "a" cutDisk = .ok (nodeOf _) cutDisk :=
    finddir_of_lookup hfits hchain rfl hlook le_rfl
  rw [hfind, hnode]

/-- A write behind the first cluster of that file reads cluster 0, and panics. -/
theorem reserved_used : ¬ ∀ (d : Disk) (fs : Fat32Fs) (l : List Ask),
    Fat32Fs.mount d = .ok fs d → ∀ u ∈ (session fs d l).2, 2 ≤ u.cluster := by
  intro hall
  have hcap : (rootDisk [record (oneLetter 0x41) 0x20 3 600]).capacity = 128 := rfl
  have hmount : Fat32Fs.mount cutDisk = .ok smallFs cutDisk :=
    mount_bootDisk (by rw [hcap]; decide)
  have hopen : (ask smallFs (⟨cutDisk, [smallFs.root]⟩, []) ⟨1, 0, .finddir "a"⟩).1 =
      ⟨cutDisk, [smallFs.root, .file 3 600 2 0]⟩ := by
    rw [ask_fst]
    exact access_finddir smallFs finddir_cutDisk
  have hlink : nextCluster smallFs 3 cutDisk = .ok 0 cutDisk := by
    have hnext : next smallFs cutDisk 3 = 0 := by
      rw [cutDisk, next_bootDisk, rootDisk, next_smallDisk (List.forall_mem_singleton.2
        ⟨le_rfl, show 2 < 128 by decide, cutDisk_rows⟩) (by decide)]
      rfl
    rw [nextCluster_of_le (by rw [cutDisk, bootDisk_capacity, hcap]; decide), hnext]
  have hrun := hall cutDisk smallFs [⟨1, 0, .finddir "a"⟩, ⟨0, 1, .write 512 [7]⟩] hmount
  rw [session, List.foldl_cons, List.foldl_cons, List.foldl_nil] at hrun
  generalize ask smallFs (⟨cutDisk, [smallFs.root]⟩, []) ⟨1, 0, .finddir "a"⟩ = s at hopen hrun
  obtain ⟨nodes, l⟩ := s
  obtain rfl : nodes = _ := hopen
  have hwrite : Uses.write smallFs 512 [7] (⟨.file 3 600 2 0, cutDisk⟩, l) =
      .error .panic (⟨.file 3 600 2 0, cutDisk⟩, l ++ [.sector 0]) :=
    write_after_zero rfl (by decide) rfl hlink
  have huses : (ask smallFs (⟨cutDisk, [smallFs.root, .file 3 600 2 0]⟩, l)
      ⟨0, 1, .write 512 [7]⟩).2 = l ++ [.sector 0] := by
    simp only [ask, List.getElem?_cons_succ, List.getElem?_cons_zero, hwrite, Outcome.state]
  rw [huses] at hrun
  exact absurd (hrun (.sector 0) (by simp)) (by decide)

end Fat

end RossOs
