import RossOs.Fat.Law
import RossOs.Fat.Reserved
import RossOs.Lib.Along

/-!
# The boot sector

`mount` reads the sector 0 and nothing else. The reserved sectors are before the FAT, and no request
to the volume comes there, however it ends: `create_keepsBoot` and `write_keepsBoot` hold for any
drive and any node with 32-bit numbers. So the volume is mounted again as it was mounted before
(`mount_again`).
-/

namespace RossOs

open ByteMem Ahci Exec

namespace Fat

/-- The drive is as it was up to the FAT. -/
def KeepsBoot (fs : Fat32Fs) (d d' : Disk) : Prop := Below (512 * fs.fatStart) d d'

instance (fs : Fat32Fs) : IsPreorder Disk (KeepsBoot fs) where
  refl := Below.refl _
  trans _ _ _ h h' := Below.trans h h' le_rfl

section
variable {fs : Fat32Fs} {c : ℕ}

/-! ## Sectors and clusters -/

/-- A write request from the FAT on leaves the sectors before it. -/
theorem writeSectors_keepsBoot {lba : ℕ} (hstart : fs.fatStart ≤ lba) (hlba : lba < 2 ^ 48)
    (count : ℕ) (buf : List UInt8) :
    AlongTo (KeepsBoot fs) (fun _ => True) (writeSectors lba count buf) := by
  refine .ite (fun _ => .pure trivial) fun _ => .ite (fun _ => .throw _) fun _ => ?_
  refine .ite (fun _ => .throw _) fun _ d => ?_
  rw [Exec.bind_of_ok (Exec.get_apply d), fisLba_commandFis, Nat.mod_eq_of_lt hlba]
  refine Sat.ite (fun _ => sat_ok.2 ⟨⟨rfl, fun x hx => ?_⟩, trivial⟩)
    fun _ => sat_error.2 (Below.refl _ d)
  exact write_apply_of_outside (.inl (hx.trans_le (Nat.mul_le_mul_left 512 hstart)))

/-- The write loop from the FAT on leaves the sectors before it. -/
theorem writeChunks_keepsBoot (rem : ℕ) {sec : ℕ} (off : ℕ) (buf : List UInt8)
    (hstart : fs.fatStart ≤ sec) (hsec : sec + rem ≤ 2 ^ 48) :
    AlongTo (KeepsBoot fs) (fun _ => True) (writeChunks rem sec off buf) := by
  induction rem using Nat.strong_induction_on generalizing sec off with
  | _ rem ih =>
    rw [writeChunks]
    refine .ite (fun _ => .pure trivial) fun hrem => .ite (fun _ => ?_) fun _ => .throw _
    refine (writeSectors_keepsBoot hstart (by omega) _ _).bind fun _ _ => ?_
    exact ih (rem - min rem 8) (by omega) _ (by omega) (by omega)

/-- `read_cluster` leaves the sectors before the FAT. -/
theorem readCluster_keepsBoot (c : ℕ) (buf : List UInt8) :
    AlongTo (KeepsBoot fs) (fun _ => True) (readCluster fs c buf) :=
  .of_readOnly (readCluster_readOnly fs c buf)

/-- `write_cluster` writes behind the FAT, so it leaves the sectors before it. -/
theorem writeCluster_keepsBoot (hlt : c < 2 ^ 32) (buf : List UInt8) :
    AlongTo (KeepsBoot fs) (fun _ => True) (writeCluster fs c buf) := by
  rcases Nat.lt_or_ge c 2 with hsmall | hc
  · rw [writeCluster, clusterToSector, if_neg (Nat.not_le.2 hsmall)]
    exact (AlongTo.throw (P := fun _ => False) _).bind fun _ h => h.elim
  · intro d
    rw [writeCluster, Exec.bind_of_ok (clusterToSector_run hc)]
    exact writeChunks_keepsBoot _ _ _ (le_add_right (Nat.le_add_right _ _))
      (dataSector_add_lt hlt).le d

/-- Reading a cluster and writing it back leaves the sectors before the FAT. -/
theorem modifyCluster_keepsBoot (hlt : c < 2 ^ 32) (g : List UInt8 → List UInt8) :
    AlongTo (KeepsBoot fs) (fun _ => True) (modifyCluster fs c g) :=
  (readCluster_keepsBoot c _).bind fun _ _ => writeCluster_keepsBoot hlt _

/-! ## Links -/

/-- `set_fat_entry` leaves the sectors before the FAT. -/
theorem setFatEntry_keepsBoot (hlt : c < 2 ^ 32) (value : ℕ) :
    AlongTo (KeepsBoot fs) (fun _ => True) (setFatEntry fs c value) := by
  refine .forM _ fun f hf => ?_
  have hsec : fatSector fs f c < 2 ^ 48 := fatSector_lt (List.mem_range.1 hf).le hlt
  refine (AlongTo.of_readOnly (readSectors_readOnly _ _ _)).bind fun _ _ => ?_
  exact writeSectors_keepsBoot (le_add_right (Nat.le_add_right _ _)) hsec _ _

/-- `next_cluster` leaves the sectors before the FAT and gives 32 bits. -/
theorem nextCluster_keepsBoot (hlt : c < 2 ^ 32) :
    AlongTo (KeepsBoot fs) (· < 2 ^ 32) (nextCluster fs c) := by
  refine fun d => (nextCluster_sat hlt).mono (fun x d' h => ?_) fun _ d' h => ?_
  · obtain ⟨rfl, -, rfl⟩ := h
    exact ⟨refl_of _ d', next_lt fs d' c⟩
  · obtain ⟨rfl, -⟩ := h
    exact refl_of _ d'

/-- `alloc_cluster` leaves the sectors before the FAT and gives a data cluster. -/
theorem allocCluster_keepsBoot {prev : Option ℕ} (hprev : ∀ p ∈ prev, p < 2 ^ 32) :
    AlongTo (KeepsBoot fs) (fun c => 2 ≤ c ∧ c < 2 ^ 32) (allocCluster fs prev) := by
  have hscan : AlongTo (KeepsBoot fs) (fun r => ∀ c ∈ r, 2 ≤ c ∧ c < 2 ^ 32)
      (scanFat fs fs.bpb.fatSizeSectors 0) := by
    refine fun d => scan_sat.mono (fun r d' h => ?_) fun _ d' h => ?_
    · obtain ⟨rfl, rfl⟩ := h
      refine ⟨refl_of _ d', fun c hc => ?_⟩
      obtain ⟨hin, hlt, -⟩ := scanned_some hc
      exact ⟨hin.1, hlt⟩
    · rw [h.1]
      exact refl_of _ d
  refine hscan.bind fun r hr => ?_
  cases r with
  | none => exact .throw _
  | some c =>
    obtain ⟨h2, hlt⟩ := hr c rfl
    have hzero : AlongTo (KeepsBoot fs) (fun c => 2 ≤ c ∧ c < 2 ^ 32)
        (writeCluster fs c (List.replicate fs.clusterSizeBytes 0) >>= fun _ => pure c) :=
      (writeCluster_keepsBoot hlt _).bind fun _ _ => .pure ⟨h2, hlt⟩
    refine (setFatEntry_keepsBoot hlt _).bind fun _ _ => ?_
    cases prev with
    | none => exact hzero
    | some p => exact (setFatEntry_keepsBoot (hprev p rfl) c).bind fun _ _ => hzero

/-- A step of the seek leaves the sectors before the FAT. -/
theorem nextOrAlloc_keepsBoot (hlt : c < 2 ^ 32) :
    AlongTo (KeepsBoot fs) (· < 2 ^ 32) (nextOrAlloc fs c) := by
  refine (nextCluster_keepsBoot hlt).bind fun next hnext => .ite (fun _ => ?_) fun _ => .pure hnext
  exact (allocCluster_keepsBoot fun p hp => Option.some.inj hp ▸ hlt).mono fun _ h => h.2

/-- The seek leaves the sectors before the FAT. -/
theorem seekCluster_keepsBoot (n : ℕ) (hlt : c < 2 ^ 32) :
    AlongTo (KeepsBoot fs) (· < 2 ^ 32) (seekCluster fs n c) := by
  induction n generalizing c with
  | zero => exact .pure hlt
  | succ n ih => exact (nextOrAlloc_keepsBoot hlt).bind fun _ hnext => ih hnext

/-! ## `write` -/

/-- The copy loop of `write` leaves the sectors before the FAT. -/
theorem writeData_keepsBoot (data : List UInt8) (off written : ℕ) (hoff : off < fs.clusterSizeBytes)
    (hlt : c < 2 ^ 32) :
    AlongTo (KeepsBoot fs) (fun _ => True) (writeData fs data c off written hoff) := by
  induction hk : data.length - written using Nat.strong_induction_on
    generalizing c off written with
  | _ k ih =>
    have hpos := fs.clusterSizeBytes_pos
    rw [writeData]
    refine .ite (fun hw => ?_) fun _ => .pure trivial
    refine (modifyCluster_keepsBoot hlt _).bind fun _ _ => .ite (fun _ => ?_) fun _ => .pure trivial
    exact (nextOrAlloc_keepsBoot hlt).bind fun _ hnext => ih _ (by omega) 0 _ _ hnext rfl

/-- What `write` keeps of a handle: the drive up to the FAT, and the numbers in the node. -/
structure KeepsHandle (fs : Fat32Fs) (h h' : Handle) : Prop where
  disk : KeepsBoot fs h.disk h'.disk
  proper : h.node.Proper → h'.node.Proper

instance (fs : Fat32Fs) : IsPreorder Handle (KeepsHandle fs) where
  refl h := ⟨refl_of _ h.disk, id⟩
  trans _ _ _ h h' := ⟨trans_of _ h.disk h'.disk, h'.proper ∘ h.proper⟩

/-- A call on the drive leaves the node and the sectors before the FAT. -/
theorem onDisk_keepsHandle {α : Type} {P : α → Prop} {x : Exec String Disk α}
    (hx : AlongTo (KeepsBoot fs) P x) : AlongTo (KeepsHandle fs) P (onDisk x) := by
  refine .mapErr fun h => ?_
  cases hrun : x h.disk with
  | ok a d =>
    obtain ⟨hd, ha⟩ := (hx h.disk).of_ok hrun
    rw [zoom_of_ok hrun]
    exact sat_ok.2 ⟨⟨hd, id⟩, ha⟩
  | error e d =>
    rw [zoom_of_error hrun]
    exact sat_error.2 ⟨(hx h.disk).of_error hrun, id⟩

end

section
variable {fs : Fat32Fs} {h : Handle} {node : Fat32Node}

/-- Giving an empty file its first cluster leaves the sectors before the FAT. -/
theorem ensureFirstCluster_keepsHandle (hnode : h.node.Proper) :
    Sat (ensureFirstCluster fs h) (fun _ h' => KeepsHandle fs h h') fun _ h' =>
      KeepsHandle fs h h' := by
  have hparent : h.node.parentCluster < 2 ^ 32 := by
    rcases hnode.parent with h0 | h2
    · rw [h0]
      exact Nat.two_pow_pos 32
    · exact h2.2
  refine Sat.bind (sat_ok.2 ?_)
  refine Sat.ite (fun _ => ?_) fun _ => sat_ok.2 (refl_of _ h)
  have halloc : AlongTo (KeepsBoot fs) (fun c => 2 ≤ c ∧ c < 2 ^ 32) (allocCluster fs none) :=
    allocCluster_keepsBoot fun p hp => absurd hp (Option.not_mem_none p)
  refine Sat.bind ((onDisk_keepsHandle halloc h).mono (fun c h₁ hc => ?_) fun _ _ he => he)
  refine Sat.bind (sat_ok.2 ?_)
  have hset : KeepsHandle fs h₁ { h₁ with node := { h₁.node with firstCluster := c } } :=
    ⟨refl_of _ h₁.disk, fun hp => ⟨hc.2.2, hp.parent⟩⟩
  refine Sat.ite (fun _ => ?_) fun _ => sat_ok.2 (trans_of _ hc.1 hset)
  refine (onDisk_keepsHandle (modifyCluster_keepsBoot hparent _) _).mono (fun _ h₂ h' => ?_)
    fun _ h₂ h' => ?_
  · exact trans_of _ (trans_of _ hc.1 hset) h'.1
  · exact trans_of _ (trans_of _ hc.1 hset) h'

/-- However `write` ends, the drive is as it was up to the FAT. -/
theorem write_keepsBoot (offset : ℕ) (data : List UInt8) (hnode : h.node.Proper) :
    Sat (Fat.write fs offset data h) (fun _ h' => KeepsBoot fs h.disk h'.disk) fun _ h' =>
      KeepsBoot fs h.disk h'.disk := by
  refine Sat.bind (sat_ok.2 ?_)
  refine Sat.ite (fun _ => sat_error.2 (refl_of _ h.disk)) fun _ => ?_
  refine Sat.ite (fun _ => sat_error.2 (refl_of _ h.disk)) fun _ => ?_
  refine Sat.bind ((ensureFirstCluster_keepsHandle hnode).mono (fun _ h₁ h₁' => ?_)
    fun _ _ he => he.disk)
  refine Sat.bind (sat_ok.2 ?_)
  -- the rest is a run whose parts are each known, from the handle `h₁` on
  have hrest : ∀ h₂, KeepsHandle fs h₁ h₂ → KeepsBoot fs h.disk h₂.disk :=
    fun h₂ h' => trans_of _ h₁'.disk h'.disk
  have hproper := h₁'.proper hnode
  refine Sat.bind ((onDisk_keepsHandle (seekCluster_keepsBoot _ hproper.first) h₁).mono
    (fun c h₂ h₂' => ?_) fun _ _ he => hrest _ he)
  refine Sat.bind ((onDisk_keepsHandle (writeData_keepsBoot data _ _ _ h₂'.2) h₂).mono
    (fun n h₃ h₃' => ?_) fun _ _ he => hrest _ (trans_of _ h₂'.1 he))
  have hkeep₃ := trans_of _ h₂'.1 h₃'.1
  refine Sat.ite (fun _ => ?_) fun _ => sat_ok.2 (hrest _ hkeep₃)
  refine Sat.bind (sat_ok.2 ?_)
  have hsize : AlongTo (KeepsBoot fs) (fun _ => True)
      (updateSizeOnDisk fs h.node (max (offset + data.length) h.node.size % 2 ^ 32)) := by
    refine .ite (fun _ => .pure trivial) fun hparent => modifyCluster_keepsBoot ?_ _
    exact (hnode.parent.resolve_left hparent).2
  refine Sat.bind ((onDisk_keepsHandle hsize _).mono (fun _ h₄ h₄' => ?_) fun _ _ he => ?_)
  · exact sat_ok.2 (trans_of _ (hrest _ hkeep₃) h₄'.1.disk)
  · exact trans_of _ (hrest _ hkeep₃) he.disk

/-! ## `create` -/

/-- The search for a slot ends in a data cluster. -/
theorem findFreeSlotFrom_keepsBoot (fuel : ℕ) {c last : ℕ} (hlast : last < 2 ^ 32) :
    AlongTo (KeepsBoot fs) (fun r => 2 ≤ r.1 ∧ r.1 < 2 ^ 32) (findFreeSlotFrom fs fuel c last) := by
  have hnew : ∀ {last : ℕ}, last < 2 ^ 32 → AlongTo (KeepsBoot fs) (fun r => 2 ≤ r.1 ∧ r.1 < 2 ^ 32)
      (allocCluster fs (some last) >>= fun new => pure (new, 0)) := by
    intro last hlast
    refine (allocCluster_keepsBoot fun p hp => ?_).bind fun new hlt => .pure hlt
    exact Option.some.inj hp ▸ hlast
  induction fuel generalizing c last with
  | zero =>
    rw [findFreeSlotFrom]
    exact .ite (fun _ => .throw _) fun _ => hnew hlast
  | succ fuel ih =>
    rw [findFreeSlotFrom]
    refine .ite (fun hc => ?_) fun _ => hnew hlast
    have hlt : c < 2 ^ 32 := by omega
    refine (readCluster_keepsBoot c _).bind fun buf _ => ?_
    cases freeSlotIn fs buf with
    | some i => exact .pure ⟨hc.1, hlt⟩
    | none => exact (nextCluster_keepsBoot hlt).bind fun next _ => ih hlt

/-- However `create` ends, the drive is as it was up to the FAT. -/
theorem create_keepsBoot (fuel : ℕ) (name : String) (hlt : node.firstCluster < 2 ^ 32) :
    AlongTo (KeepsBoot fs) Fat32Node.Proper (node.create fs fuel name) := by
  refine .ite (fun _ => .throw _) fun _ => ?_
  cases to83 name with
  | none => exact .throw _
  | some raw =>
    refine (AlongTo.of_readOnly (walkDirFrom_readOnly fs _ fuel _ ())).mapErr.bind fun dup _ => ?_
    refine .ite (fun _ => .throw _) fun _ => ?_
    refine (findFreeSlotFrom_keepsBoot fuel hlt).mapErr.bind fun slot hslot => ?_
    refine (modifyCluster_keepsBoot hslot.2 _).mapErr.bind fun _ _ => .pure ?_
    exact ⟨Nat.two_pow_pos 32, .inr hslot⟩

/-! ## Lookups -/

/-- A lookup changes nothing and yields a proper node. -/
theorem finddir_keepsBoot (fs : Fat32Fs) (fuel : ℕ) (node : Fat32Node) (name : String) :
    AlongTo (KeepsBoot fs) Fat32Node.Proper (node.finddir fs fuel name) := by
  intro d
  have hlog := Uses.logs_finddir fs fuel node name (d, [])
  have hproper : Notes Use.Data (fun n _ => n.Proper) (Uses.finddir fs fuel node name (d, [])) :=
    notes_finddir fuel node name clean_nil
  rcases (finddir_readOnly fs fuel node name).outcome d with ⟨n, hrun⟩ | ⟨e, hrun⟩
  · rw [hrun] at hlog ⊢
    cases hfound : Uses.finddir fs fuel node name (d, []) with
    | ok n' s =>
      rw [hfound] at hlog
      cases hlog
      exact sat_ok.2 ⟨refl_of _ s.1, (hproper.of_ok hfound).1⟩
    | error e s =>
      rw [hfound] at hlog
      cases hlog
  · rw [hrun]
    exact sat_error.2 (refl_of _ d)

end

/-! ## `mount` -/

/-- A drive that is as it was up to the FAT is mounted as it was. -/
theorem mount_again {fs : Fat32Fs} {d d' : Disk} (hmount : Fat32Fs.mount d = .ok fs d)
    (hstart : 1 ≤ fs.fatStart) (h : KeepsBoot fs d d') : Fat32Fs.mount d' = .ok fs d' := by
  have hcap : 0 + 1 ≤ d.capacity := by
    refine Nat.le_of_not_lt fun hlt => ?_
    rw [Fat32Fs.mount, Exec.bind_of_error (readSector_beyond (by decide) (by omega))] at hmount
    cases hmount
  have hcap' : 0 + 1 ≤ d'.capacity := by rwa [h.capacity]
  have hsame : read d'.bytes (512 * 0) 512 = read d.bytes (512 * 0) 512 :=
    read_congr fun i hi => h.bytes _ (by omega)
  rw [Fat32Fs.mount, Exec.bind_of_ok (readSector_run hcap)] at hmount
  rw [Fat32Fs.mount, Exec.bind_of_ok (readSector_run hcap'), hsame]
  generalize read d.bytes (512 * 0) 512 = sec at hmount
  cases hbpb : parseBpb sec with
  | error e =>
    simp only [hbpb] at hmount
    cases hmount
  | ok bpb =>
    simp only [hbpb] at hmount
    cases hmount
    rfl

/-! ## Drives with one volume -/

/-- The drives have the same size, the same links and the same clusters. -/
structure SameVolume (fs : Fat32Fs) (d d' : Disk) : Prop where
  capacity : d'.capacity = d.capacity
  next : next fs d' = next fs d
  cluster : cluster fs d' = cluster fs d

namespace SameVolume

variable {fs : Fat32Fs} {d d' : Disk} {c : ℕ} {cs : List ℕ} {e : DirEntry}

/-- The same volume, the other way around. -/
theorem symm (h : SameVolume fs d d') : SameVolume fs d' d :=
  ⟨h.capacity.symm, h.next.symm, h.cluster.symm⟩

/-- The drives have the same chains. -/
theorem fatChain (h : SameVolume fs d d') (hcs : FatChain fs d c cs) : FatChain fs d' c cs := by
  rw [FatChain, h.next]
  exact hcs

/-- The drives have the same slots. -/
theorem dirSlots (h : SameVolume fs d d') (cs : List ℕ) : dirSlots fs d' cs = dirSlots fs d cs := by
  rw [Fat.dirSlots, Fat.dirSlots, h.cluster]

/-- The drives have the same directories. -/
theorem isDir (h : SameVolume fs d d') (hdir : IsDir live fs d c) : IsDir live fs d' c := by
  induction hdir with
  | root => exact .root
  | @sub c cs e _ hcs he hsub hdot hfirst ih =>
    rw [← h.dirSlots] at he
    exact .sub ih (h.fatChain hcs) he hsub hdot hfirst

/-- The drives have the same entries. -/
theorem isEntry (h : SameVolume fs d d') (he : IsEntry live fs d e) : IsEntry live fs d' e := by
  obtain ⟨c, cs, hdir, hcs, hmem, hdot⟩ := he
  rw [← h.dirSlots] at hmem
  exact ⟨c, cs, h.isDir hdir, h.fatChain hcs, hmem, hdot⟩

/-- The drives have the same chains of entries. -/
theorem dirChain (h : SameVolume fs d d') (hcs : DirChain fs d c cs) : DirChain fs d' c cs :=
  hcs.imp_right h.fatChain

/-- Of two drives with the same volume, one is well-formed if the other is. -/
theorem wellFormed (h : SameVolume fs d d') (hwf : WellFormed fs d) : WellFormed fs d' := by
  have hback := h.symm
  refine ⟨?_, ?_, fun e he => ?_, fun e cs cs' he hcs hcs' => ?_,
    fun e e' cs cs' he he' hne hcs hcs' => ?_, fun e cs he hfile hcs => ?_⟩
  · rw [h.capacity]
    exact hwf.fits
  · obtain ⟨cs, hcs⟩ := hwf.root
    exact ⟨cs, h.fatChain hcs⟩
  · obtain ⟨cs, hcs⟩ := hwf.chain e (hback.isEntry he)
    exact ⟨cs, h.dirChain hcs⟩
  · exact hwf.apartRoot e cs cs' (hback.isEntry he) (hback.fatChain hcs) (hback.dirChain hcs')
  · exact hwf.apart e e' cs cs' (hback.isEntry he) (hback.isEntry he') hne (hback.dirChain hcs)
      (hback.dirChain hcs')
  · exact hwf.covers e cs (hback.isEntry he) hfile (hback.dirChain hcs)

end SameVolume

/-- A boot sector changes nothing in the volume. -/
theorem sameVolume_bootDisk (d : Disk) : SameVolume smallFs d (bootDisk d) :=
  ⟨bootDisk_capacity d, funext (next_bootDisk d), funext (cluster_bootDisk d)⟩

end Fat

end RossOs
