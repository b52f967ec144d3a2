import RossOs.Fat.Alloc
import RossOs.Fat.Create
import RossOs.Fat.File

/-!
# Termination

Which requests to a node come to an end. `read` and `write` are bounded by the bytes asked for. The
scan of a directory, in `readdir`, `finddir` and `create`, is bounded by nothing: it ends exactly
when its chain does not come back to a cluster before it has met an end mark, a record it looks for
or a sector that the drive does not have.
-/

namespace RossOs

open ByteMem Ahci Exec

namespace Fat

/-! ## Reading beyond the drive -/

section
variable {fs : Fat32Fs} {d : Disk} {c : ℕ}

/-- The chunks of a read of sectors that are not all on the drive. -/
theorem readChunks_beyond (rem : ℕ) {sec off : ℕ} {buf : List UInt8}
    (hbuf : off + 512 * rem ≤ buf.length) (hsec : sec + rem ≤ 2 ^ 48) (hrem : 0 < rem)
    (hd : d.capacity < sec + rem) : ∃ m, readChunks rem sec off buf d = .error (.err m) d := by
  induction rem using Nat.strong_induction_on generalizing sec off buf with
  | _ rem ih =>
    have hcnt : 0 < min rem 8 ∧ min rem 8 ≤ 8 ∧ min rem 8 ≤ rem := by omega
    have hdrop : (buf.drop off).length = buf.length - off := List.length_drop
    rw [readChunks, if_neg (by omega), if_pos (by omega)]
    generalize min rem 8 = cnt at hcnt
    by_cases hone : sec + cnt ≤ d.capacity
    · rw [Exec.bind_of_ok (readSectors_run hcnt.1 hcnt.2.1 (by omega) hone)]
      refine ih (rem - cnt) (by omega) ?_ (by omega) (by omega) (by omega)
      rw [List.length_append, List.length_take, length_splice (by rw [length_read]; omega)]
      omega
    · exact ⟨_, Exec.bind_of_error
        (readSectors_beyond hcnt.1 hcnt.2.1 (by omega) (by omega) (by omega))⟩

/-- `read_cluster` yields the cluster, unless it is beyond the end of the drive. -/
theorem readCluster_sat (hc : 2 ≤ c) (hlt : c < 2 ^ 32) :
    Sat (readCluster fs c (List.replicate fs.clusterSizeBytes 0) d)
      (fun buf d' => d' = d ∧ dataSector fs c + fs.bpb.sectorsPerCluster ≤ d.capacity ∧
        buf = cluster fs d c)
      (fun e d' => d' = d ∧ e.IsErr ∧
        d.capacity < dataSector fs c + fs.bpb.sectorsPerCluster) := by
  by_cases hd : dataSector fs c + fs.bpb.sectorsPerCluster ≤ d.capacity
  · rw [readCluster_of_le hc hd List.length_replicate, sat_ok]
    exact ⟨rfl, hd, rfl⟩
  · have hd := Nat.lt_of_not_le hd
    have hpos := Nat.pos_of_isPowerOfTwo fs.bpb.sectorsPerCluster_pow
    have hlen : 0 + 512 * fs.bpb.sectorsPerCluster ≤
        (List.replicate fs.clusterSizeBytes (0 : UInt8)).length := by
      rw [List.length_replicate, Fat32Fs.clusterSizeBytes, Nat.zero_add]
    obtain ⟨m, hrun⟩ := readChunks_beyond (d := d) fs.bpb.sectorsPerCluster hlen
      (dataSector_add_lt hlt).le hpos hd
    rw [readCluster, Exec.bind_of_ok (clusterToSector_run hc),
      show fs.dataStart + (c - 2) * fs.bpb.sectorsPerCluster = dataSector fs c from rfl, hrun,
      sat_error]
    exact ⟨rfl, ⟨m, rfl⟩, hd⟩

/-- `next_cluster` yields the link, unless its sector is beyond the end of the drive. -/
theorem nextCluster_sat (hlt : c < 2 ^ 32) :
    Sat (nextCluster fs c d) (fun x d' => d' = d ∧ fatSector fs 0 c < d.capacity ∧ x = next fs d c)
      (fun e d' => d' = d ∧ e.IsErr ∧ d.capacity ≤ fatSector fs 0 c) := by
  have hsec : fatSector fs 0 c = fs.fatStart + 4 * c / 512 := by
    rw [fatSector, Nat.zero_mul, Nat.add_zero]
  by_cases hd : fatSector fs 0 c < d.capacity
  · rw [nextCluster_of_le (by omega), sat_ok]
    exact ⟨rfl, hd, rfl⟩
  · have hd := Nat.le_of_not_lt hd
    have hread : readSectors (fs.fatStart + 4 * c / 512) 1 (List.replicate 512 0) d = _ :=
      readSector_beyond (hsec ▸ fatSector_lt (Nat.zero_le _) hlt) (hsec ▸ hd)
    rw [nextCluster, Exec.bind_of_error hread, sat_error]
    exact ⟨rfl, ⟨_, rfl⟩, hd⟩

end

/-! ## Requests that return on every drive -/

section
variable {fs : Fat32Fs} {d : Disk} {c : ℕ}

/-- A read request returns, with a value or an error. -/
theorem readSectors_returns (lba count : ℕ) (buf : List UInt8) (d : Disk) :
    Returns (readSectors lba count buf d) := by
  rw [readSectors]
  repeat' split
  · exact returns_ok _ _
  · exact returns_err _ _
  · exact returns_err _ _
  · rw [Exec.bind_of_ok (Exec.get_apply d)]
    split
    · exact returns_ok _ _
    · exact returns_err _ _

/-- A write request returns, with a value or an error. -/
theorem writeSectors_returns (lba count : ℕ) (buf : List UInt8) (d : Disk) :
    Returns (writeSectors lba count buf d) := by
  rw [writeSectors]
  repeat' split
  · exact returns_ok _ _
  · exact returns_err _ _
  · exact returns_err _ _
  · rw [Exec.bind_of_ok (Exec.get_apply d)]
    split
    · exact returns_ok _ _
    · exact returns_err _ _

/-- `read_cluster` returns for every cluster number from 2 on. -/
theorem readCluster_returns (hc : 2 ≤ c) (hlt : c < 2 ^ 32) :
    Returns (readCluster fs c (List.replicate fs.clusterSizeBytes 0) d) :=
  (readCluster_sat hc hlt).mono (fun _ _ _ => trivial) fun _ _ h => h.2.1

/-- `write_cluster` returns for every cluster number from 2 on. -/
theorem writeCluster_returns {buf : List UInt8} (hc : 2 ≤ c) (hlt : c < 2 ^ 32)
    (hbuf : buf.length = fs.clusterSizeBytes) : Returns (writeCluster fs c buf d) :=
  (writeCluster_sat hc hlt hbuf).mono (fun _ _ _ => trivial) fun _ _ h => h.1

/-- A read-modify-write returns for every cluster number from 2 on. -/
theorem modifyCluster_returns {g : List UInt8 → List UInt8} (hc : 2 ≤ c) (hlt : c < 2 ^ 32)
    (hg : ∀ buf, buf.length = fs.clusterSizeBytes → (g buf).length = fs.clusterSizeBytes) :
    Returns (modifyCluster fs c g d) := by
  refine (readCluster_returns hc hlt).bind fun buf d' hread => ?_
  obtain ⟨-, -, rfl⟩ := (readCluster_sat hc hlt).of_ok hread
  exact writeCluster_returns hc hlt (hg _ (length_cluster fs d c))

/-- `next_cluster` always returns. -/
theorem nextCluster_returns (c : ℕ) (d : Disk) : Returns (nextCluster fs c d) :=
  (readSectors_returns _ _ _ _).bind fun _ _ _ => returns_ok _ _

/-- `set_fat_entry` always returns. -/
theorem setFatEntry_returns (c v : ℕ) (d : Disk) : Returns (setFatEntry fs c v d) := by
  refine Sat.forM (I := fun _ => True) _ (fun f _ d _ => ?_) d trivial
  exact (readSectors_returns _ _ _ _).bind fun _ _ _ => writeSectors_returns _ _ _ _

/-- `alloc_cluster` returns, and what it returns is the number of a cluster. -/
theorem allocCluster_returns (prev : Option ℕ) (d : Disk) :
    Sat (allocCluster fs prev d) (fun c _ => 2 ≤ c ∧ c < 2 ^ 32) fun e _ => e.IsErr := by
  refine Sat.bind (scan_sat.mono (fun r d' hr => ?_) fun e _ h => h.2.1)
  obtain ⟨-, rfl⟩ := hr
  cases hscan : scanned fs d with
  | none => exact sat_error.2 ⟨_, rfl⟩
  | some c =>
    obtain ⟨⟨h2, -⟩, hlt, -⟩ := scanned_some hscan
    refine Sat.bind ((setFatEntry_returns _ _ _).mono (fun _ d₁ _ => ?_) fun _ _ h => h)
    have hzero : ∀ d₂, Sat ((writeCluster fs c (List.replicate fs.clusterSizeBytes 0) >>=
        fun _ => pure c : Exec String Disk ℕ) d₂) (fun c _ => 2 ≤ c ∧ c < 2 ^ 32)
        fun e _ => e.IsErr := by
      intro d₂
      refine Sat.bind (Sat.mono (writeCluster_returns h2 hlt List.length_replicate)
        (fun _ _ _ => ?_) fun _ _ h => h)
      exact sat_ok.2 ⟨h2, hlt⟩
    cases prev with
    | none => exact hzero d₁
    | some p =>
      exact Sat.bind ((setFatEntry_returns _ _ _).mono (fun _ d₂ _ => hzero d₂) fun _ _ h => h)

/-- The read loop returns whatever the FAT holds: the size left bounds its turns. -/
theorem readChainFrom_returns (left : ℕ) (out : List UInt8) (c : ℕ) (d : Disk) :
    Returns (readChainFrom fs c left out d) := by
  induction left using Nat.strong_induction_on generalizing c d out with
  | _ left ih =>
    rw [readChainFrom]
    split
    case isTrue h =>
      have hpos := fs.clusterSizeBytes_pos
      refine (readCluster_returns h.1 (by omega)).bind fun part d₁ _ => ?_
      exact (nextCluster_returns _ _).bind fun next d₂ _ => ih _ (by omega) _ _ _
    case isFalse => exact returns_ok _ _

/-- `read` returns. -/
theorem read_returns (node : Fat32Node) (offset : ℕ) (buffer : List UInt8) (d : Disk) :
    Returns (node.read fs offset buffer d) := by
  rw [Fat32Node.read]
  split
  · exact returns_err _ _
  split
  · exact returns_ok _ _
  have hchain : ∀ max, Returns (readChainInto fs node.firstCluster max d) := by
    intro max
    rw [readChainInto]
    split
    · exact returns_ok _ _
    · exact readChainFrom_returns _ _ _ _
  refine (hchain _).mapErr.bind fun chain d' _ => ?_
  exact Sat.ite (fun _ => returns_ok _ _) fun _ => returns_ok _ _

end

/-! ## `write` stops -/

section
variable {fs : Fat32Fs}

/-- The sector loop of a read halts. -/
theorem readChunks_halts (rem sec off : ℕ) (buf : List UInt8) (d : Disk) :
    Halts (readChunks rem sec off buf d) := by
  induction rem using Nat.strong_induction_on generalizing sec off buf d with
  | _ rem ih =>
    rw [readChunks]
    split
    · exact (returns_ok _ _).halts
    split
    · exact (readSectors_returns _ _ _ _).halts.bind fun _ _ => ih _ (by omega) _ _ _ _
    · exact halts_panic _

/-- The sector loop of a write halts. -/
theorem writeChunks_halts (rem sec off : ℕ) (buf : List UInt8) (d : Disk) :
    Halts (writeChunks rem sec off buf d) := by
  induction rem using Nat.strong_induction_on generalizing sec off d with
  | _ rem ih =>
    rw [writeChunks]
    split
    · exact (returns_ok _ _).halts
    split
    · exact (writeSectors_returns _ _ _ _).halts.bind fun _ _ => ih _ (by omega) _ _ _
    · exact halts_panic _

/-- `cluster_to_sector` halts, with its underflow panic below cluster 2. -/
theorem clusterToSector_halts {ε σ : Type} (c : ℕ) (s : σ) :
    Halts ((clusterToSector fs c : Exec ε σ ℕ) s) := by
  rw [clusterToSector]
  split
  · exact (returns_ok _ _).halts
  · exact halts_panic _

/-- A read-modify-write halts. -/
theorem modifyCluster_halts (c : ℕ) (g : List UInt8 → List UInt8) (d : Disk) :
    Halts (modifyCluster fs c g d) := by
  refine Halts.bind ((clusterToSector_halts _ _).bind fun _ _ => readChunks_halts _ _ _ _ _)
    fun buf d' => ?_
  exact (clusterToSector_halts _ _).bind fun _ _ => writeChunks_halts _ _ _ _ _

/-- `alloc_cluster` halts. -/
theorem allocCluster_halts (prev : Option ℕ) (d : Disk) : Halts (allocCluster fs prev d) :=
  Returns.halts ((allocCluster_returns prev d).mono (fun _ _ _ => trivial) fun _ _ h => h)

/-- One step of the seek halts. -/
theorem nextOrAlloc_halts (c : ℕ) (d : Disk) : Halts (nextOrAlloc fs c d) := by
  refine (nextCluster_returns c d).halts.bind fun next d' => ?_
  split
  · exact allocCluster_halts _ _
  · exact (returns_ok _ _).halts

/-- The seek halts: its turns are counted by the offset. -/
theorem seekCluster_halts (n c : ℕ) (d : Disk) : Halts (seekCluster fs n c d) := by
  induction n generalizing c d with
  | zero => exact (returns_ok _ _).halts
  | succ n ih => exact (nextOrAlloc_halts c d).bind fun next d' => ih next d'

/-- The copy loop of a write halts: each turn writes at least a byte. -/
theorem writeData_halts (data : List UInt8) (c off written : ℕ)
    (hoff : off < fs.clusterSizeBytes) (d : Disk) :
    Halts (writeData fs data c off written hoff d) := by
  induction h : data.length - written using Nat.strong_induction_on generalizing c off written d
    with
  | _ n ih =>
    rw [writeData]
    split
    · refine (modifyCluster_halts _ _ _).bind fun _ d' => ?_
      split
      · refine (nextOrAlloc_halts _ _).bind fun next d'' => ?_
        exact ih _ (by omega) _ _ _ _ _ rfl
      · exact (returns_ok _ _).halts
    · exact (returns_ok _ _).halts

/-- A call on the drive halts when it does on the handle's disk. -/
theorem onDisk_halts {α : Type} {x : Exec String Disk α} {h : Handle} (hx : Halts (x h.disk)) :
    Halts (onDisk x h) :=
  Halts.mapErr hx.zoom

/-- Giving a file its first cluster halts. -/
theorem ensureFirstCluster_halts (h : Handle) : Halts (ensureFirstCluster fs h) := by
  refine Halts.bind (x := get) (returns_ok h h).halts fun h₁ h₂ => ?_
  refine Sat.ite (fun _ => ?_) fun _ => (returns_ok _ _).halts
  refine (onDisk_halts (allocCluster_halts _ _)).bind fun c h₃ => ?_
  refine Halts.bind (x := modify _) (returns_ok _ _).halts fun _ h₄ => ?_
  refine Sat.ite (fun _ => ?_) fun _ => (returns_ok _ _).halts
  exact onDisk_halts (modifyCluster_halts _ _ _)

/-- `write` stops, on every drive and every node. -/
theorem write_halts (offset : ℕ) (data : List UInt8) (h : Handle) :
    Halts (write fs offset data h) := by
  refine Halts.bind (x := get) (returns_ok h h).halts fun h₁ h₂ => ?_
  refine Sat.ite (fun _ => (returns_err _ _).halts) fun _ => ?_
  refine Sat.ite (fun _ => halts_panic _) fun _ => ?_
  refine (ensureFirstCluster_halts _).bind fun _ h₃ => ?_
  refine Halts.bind (x := get) (returns_ok h₃ h₃).halts fun h₄ h₅ => ?_
  refine (onDisk_halts (seekCluster_halts _ _ _)).bind fun c h₆ => ?_
  refine (onDisk_halts (writeData_halts _ _ _ _ _ _)).bind fun n h₇ => ?_
  refine Sat.ite (fun _ => ?_) fun _ => (returns_ok _ _).halts
  refine Halts.bind (x := modify _) (returns_ok _ _).halts fun _ h₈ => ?_
  refine (onDisk_halts ?_).bind fun _ _ => (returns_ok _ _).halts
  exact Sat.ite (fun _ => (returns_ok _ _).halts) fun _ => modifyCluster_halts _ _ _

end

/-! ## The scan of a directory -/

/-- The scan of a directory for the records `hit` goes on past the cluster `c`: the drive has its
sectors and its entry in the FAT, and no slot of it is an end mark or a record that ends the scan.
-/
structure Passes (fs : Fat32Fs) (d : Disk) (hit : DirEntry → Bool) (c : ℕ) : Prop
    extends OnDisk fs d c where
  noEnd : ∀ e ∈ slotsOf fs (cluster fs d c) c, e.isEnd = false
  noHit : ∀ e ∈ live (slotsOf fs (cluster fs d c) c), hit e = false

/-- The scan for the records `hit` from the cluster `c` never ends. -/
def Circles (fs : Fat32Fs) (d : Disk) (hit : DirEntry → Bool) (c : ℕ) : Prop :=
  Chain.Circles (next fs d) (Passes fs d hit) c

/-- A walk circles when it passes every cluster it comes to. -/
theorem circles_iff {fs : Fat32Fs} {d : Disk} {hit : DirEntry → Bool} {c : ℕ} :
    Circles fs d hit c ↔ ∀ n, Passes fs d hit ((next fs d)^[n] c) :=
  Chain.circles_iff ((List.finite_toSet (List.range 0x0FFFFFF8)).subset fun _ h =>
    List.mem_range.2 h.not_eoc)

section
variable {fs : Fat32Fs} {d : Disk} {hit : DirEntry → Bool} {S T : Type}
  {f : DirEntry → S → Option T × S} {c fuel : ℕ} {s : S}

/-- A callback that returns something on the records `hit` alone. -/
theorem callback_isSome (hf : ∀ e s, (f e s).1.isSome = hit e) (l : List DirEntry) (s : S) :
    (callback f l s).1.isSome = l.any hit := by
  induction l generalizing s with
  | nil => rfl
  | cons e l ih =>
    rw [callback, List.any_cons, ← hf e s]
    rcases f e s with ⟨_ | v, s'⟩
    · rw [Option.isSome_none, Bool.false_or]
      exact ih s'
    · rfl

/-- A turn of `walk_dir` that goes on. -/
theorem walkDirFrom_passes (hf : ∀ e s, (f e s).1.isSome = hit e) (h : Passes fs d hit c)
    (fuel : ℕ) (s : S) : ∃ s', walkDirFrom fs f (fuel + 1) c s d =
      walkDirFrom fs f fuel (next fs d c) s' d := by
  have hany : (slotsOf fs (cluster fs d c) c).any (·.isEnd) = false :=
    List.any_eq_false.2 fun e he => Bool.not_eq_true _ ▸ h.noEnd e he
  have hmiss : (callback f (live (slotsOf fs (cluster fs d c) c)) s).1.isSome = false := by
    rw [callback_isSome hf]
    exact List.any_eq_false.2 fun e he => Bool.not_eq_true _ ▸ h.noHit e he
  rw [walkDirFrom, if_pos ⟨h.two_le, h.not_eoc⟩, Exec.bind_of_ok (readCluster_onDisk h.toOnDisk),
    walkSlots_cluster]
  rcases hr : callback f (live (slotsOf fs (cluster fs d c) c)) s with ⟨_ | v, s'⟩
  · refine ⟨s', ?_⟩
    simp only [flowOf, hany, Bool.false_eq_true, if_false]
    rw [Exec.bind_of_ok (nextCluster_of_le h.fat)]
  · rw [hr] at hmiss
    cases hmiss

/-- A turn of `walk_dir` that does not go on ends the walk. -/
theorem walkDirFrom_stops (hf : ∀ e s, (f e s).1.isSome = hit e) (h : ¬ Passes fs d hit c)
    (fuel : ℕ) (s : S) : Returns (walkDirFrom fs f (fuel + 1) c s d) := by
  by_cases hc : 2 ≤ c ∧ c < 0x0FFFFFF8
  · rw [walkDirFrom, if_pos hc]
    refine Sat.bind ((readCluster_sat hc.1 (by omega)).mono (fun buf d' hread => ?_)
      fun _ _ he => he.2.1)
    obtain ⟨rfl, hdata, rfl⟩ := hread
    rw [walkSlots_cluster]
    have hmiss := (callback_isSome hf (live (slotsOf fs (cluster fs d' c) c)) s).symm
    rcases hr : callback f (live (slotsOf fs (cluster fs d' c) c)) s with ⟨_ | v, s'⟩
    · rw [hr, Option.isSome_none] at hmiss
      cases hend : (slotsOf fs (cluster fs d' c) c).any (·.isEnd) with
      | true =>
        simp only [flowOf, hend, if_true]
        exact returns_ok _ _
      | false =>
        simp only [flowOf, hend, Bool.false_eq_true, if_false]
        refine Sat.bind ((nextCluster_sat (by omega)).mono (fun x d'' hnext => ?_)
          fun _ _ he => he.2.1)
        refine absurd ⟨⟨hc.1, hc.2, ?_, hdata⟩, fun e he => ?_, fun e he => ?_⟩ h
        · have := hnext.2.1
          rw [fatSector, Nat.zero_mul, Nat.add_zero] at this
          exact this
        · exact Bool.eq_false_iff.2 (List.any_eq_false.1 hend e he)
        · exact Bool.eq_false_iff.2 (List.any_eq_false.1 hmiss e he)
    · exact returns_ok _ _
  · rw [walkDirFrom_of_out f _ hc]
    exact returns_ok _ _

/-- Without fuel the walk stops at a cluster that it would read. -/
theorem walkDirFrom_zero (hc : 2 ≤ c ∧ c < 0x0FFFFFF8) (s : S) :
    walkDirFrom fs f 0 c s d = .error .fuel d := by
  rw [walkDirFrom, if_pos hc]
  rfl

/-- The walk returns by the turn that does not go on. -/
theorem walkDirFrom_returns (hf : ∀ e s, (f e s).1.isSome = hit e) {n : ℕ}
    (h : ¬ Passes fs d hit ((next fs d)^[n] c)) (hfuel : n < fuel) :
    Returns (walkDirFrom fs f fuel c s d) := by
  induction fuel generalizing n c s with
  | zero => exact absurd hfuel (Nat.not_lt_zero n)
  | succ fuel ih =>
    by_cases hc : Passes fs d hit c
    · obtain ⟨s', hrun⟩ := walkDirFrom_passes hf hc fuel s
      cases n with
      | zero => exact absurd hc h
      | succ n =>
        rw [hrun]
        exact ih h (Nat.lt_of_succ_lt_succ hfuel)
    · exact walkDirFrom_stops hf hc fuel s

/-- While every turn goes on, the walk uses up its fuel. -/
theorem walkDirFrom_fuel (hf : ∀ e s, (f e s).1.isSome = hit e)
    (h : ∀ n, Passes fs d hit ((next fs d)^[n] c)) :
    walkDirFrom fs f fuel c s d = .error .fuel d := by
  induction fuel generalizing c s with
  | zero => exact walkDirFrom_zero ⟨(h 0).two_le, (h 0).not_eoc⟩ s
  | succ fuel ih =>
    have hc : Passes fs d hit c := h 0
    obtain ⟨s', hrun⟩ := walkDirFrom_passes hf hc fuel s
    rw [hrun]
    exact ih fun n => h (n + 1)

/-- `walk_dir` comes to an end when the chain does not circle, and otherwise never. -/
theorem walkDir_returns_iff (hf : ∀ e s, (f e s).1.isSome = hit e) (node : Fat32Node) (s : S) :
    (¬ Circles fs d hit node.firstCluster →
      ∃ fuel, Returns (walkDir fs fuel node f s d)) ∧
    (Circles fs d hit node.firstCluster → ∀ fuel, walkDir fs fuel node f s d = .error .fuel d) := by
  rw [circles_iff]
  constructor
  · intro h
    obtain ⟨n, hn⟩ := not_forall.1 h
    exact ⟨n + 1, walkDirFrom_returns hf hn (Nat.lt_succ_self n)⟩
  · intro h fuel
    exact walkDirFrom_fuel hf h

/-- The search for a slot past the end of the chain. -/
theorem findFreeSlotFrom_out {last : ℕ} (hc : ¬ (2 ≤ c ∧ c < 0x0FFFFFF8)) :
    Sat (findFreeSlotFrom fs fuel c last d)
      (fun r _ => 2 ≤ r.1 ∧ r.1 < 2 ^ 32 ∧ r.2 + 32 ≤ fs.clusterSizeBytes) fun e _ => e.IsErr := by
  rw [findFreeSlotFrom_of_out hc]
  refine Sat.bind ((allocCluster_returns _ _).mono (fun c d' h => ?_) fun _ _ h => h)
  have hpos := Nat.pos_of_isPowerOfTwo fs.bpb.sectorsPerCluster_pow
  refine sat_ok.2 ⟨h.1, h.2, ?_⟩
  rw [Fat32Fs.clusterSizeBytes]
  omega

/-- After a walk that found nothing the search for a slot comes to an end: it follows the same
chain, and an end mark is a free slot. -/
theorem findFreeSlotFrom_returns {s' : S} {d' : Disk} (last : ℕ)
    (h : walkDirFrom fs f fuel c s d = .ok (none, s') d') :
    Sat (findFreeSlotFrom fs fuel c last d)
      (fun r _ => 2 ≤ r.1 ∧ r.1 < 2 ^ 32 ∧ r.2 + 32 ≤ fs.clusterSizeBytes) fun e _ => e.IsErr := by
  induction fuel generalizing c last s with
  | zero =>
    by_cases hc : 2 ≤ c ∧ c < 0x0FFFFFF8
    · rw [walkDirFrom_zero hc] at h
      cases h
    · exact findFreeSlotFrom_out hc
  | succ fuel ih =>
    by_cases hc : 2 ≤ c ∧ c < 0x0FFFFFF8
    · rw [walkDirFrom, if_pos hc] at h
      obtain ⟨buf, d₁, hread, h⟩ := Exec.bind_eq_ok.1 h
      obtain ⟨rfl, -, rfl⟩ := (readCluster_sat hc.1 (by omega)).of_ok hread
      rw [findFreeSlotFrom, if_pos hc, Exec.bind_of_ok hread, freeSlotIn_eq _ c]
      cases hfree : (slotsOf fs (cluster fs d₁ c) c).find? (·.isFree) with
      | some e =>
        obtain ⟨i, hi, rfl⟩ := mem_slotsOf (List.mem_of_find?_eq_some hfree)
        have hslot : 32 * i + 32 ≤ fs.clusterSizeBytes := by
          have := fs.slots_eq
          omega
        exact sat_ok.2 ⟨hc.1, show c < 2 ^ 32 by omega, hslot⟩
      | none =>
        -- no slot is free, so none is an end mark, and the walk went on too
        have hend : (slotsOf fs (cluster fs d₁ c) c).any (·.isEnd) = false := by
          refine List.any_eq_false.2 fun e he hmark => ?_
          refine List.find?_eq_none.1 hfree e he (decide_eq_true (.inl ?_))
          exact of_decide_eq_true hmark
        rw [walkSlots_cluster] at h
        rcases hr : callback f (live (slotsOf fs (cluster fs d₁ c) c)) s with ⟨_ | v, s₁⟩
        all_goals rw [hr] at h
        · simp only [flowOf, hend, Bool.false_eq_true, if_false] at h
          obtain ⟨x, d₂, hnext, hrest⟩ := Exec.bind_eq_ok.1 h
          obtain ⟨rfl, -⟩ := (nextCluster_sat (by omega)).of_ok hnext
          simp only [Option.map_none]
          rw [Exec.bind_of_ok hnext]
          exact ih c hrest
        · simp only [flowOf] at h
          cases h
    · exact findFreeSlotFrom_out hc

end

/-! ## The requests to a node -/

/-- A request to a node. -/
inductive Request where
  | readdir
  | finddir (name : String)
  | create (name : String)
  | read (offset : ℕ) (buffer : List UInt8)
  | write (offset : ℕ) (data : List UInt8)

/-- The records that end the scan, for a request that scans the node as a directory. `create` looks
at the name first. -/
def Request.scan (node : Fat32Node) : Request → Option (DirEntry → Bool)
  | .readdir => if node.isDir then some fun _ => false else none
  | .finddir name => if node.isDir then some fun e => nameMatches e.bytes name else none
  | .create name =>
    if node.isDir ∧ (to83 name).isSome then some fun e => nameMatches e.bytes name else none
  | .read .. => none
  | .write .. => none

/-- The request comes to an end in finitely many turns of its loops. It returns then, except that
`write` may also panic. -/
def Terminates (fs : Fat32Fs) (d : Disk) (node : Fat32Node) : Request → Prop
  | .readdir => ∃ fuel, Returns (node.readdir fs fuel d)
  | .finddir name => ∃ fuel, Returns (node.finddir fs fuel name d)
  | .create name => ∃ fuel, Returns (node.create fs fuel name d)
  | .read offset buffer => Returns (node.read fs offset buffer d)
  | .write offset data => Halts (write fs offset data ⟨node, d⟩)

section
variable {fs : Fat32Fs} {d : Disk} {node : Fat32Node} {fuel : ℕ} {name : String}

/-- Running out of fuel is not returning. -/
theorem not_returns_fuel {ε σ α : Type} (s : σ) : ¬ Returns (.error .fuel s : Outcome ε σ α) :=
  fun h => h.halts.ne_fuel s rfl

/-- The callback of `finddir` stops at exactly the entries that match. -/
theorem find_isSome {T : Type} (p : DirEntry → Bool) (g : DirEntry → T) (e : DirEntry) (s : Unit) :
    ((if p e then some (g e) else none, s) : Option T × Unit).1.isSome = p e := by
  cases p e <;> rfl

/-- A run that begins with a walk, on a directory: it terminates if what follows the walk does, and
if the walk does. -/
theorem scan_returns_iff {S T α : Type} {hit : DirEntry → Bool} {f : DirEntry → S → Option T × S}
    (hf : ∀ e s, (f e s).1.isSome = hit e) (s : S) {g : ℕ → Option T × S → Exec Unit Disk α}
    (hg : ∀ fuel r, walkDir fs fuel node f s d = .ok r d → Returns (g fuel r d)) :
    (∃ fuel, Returns ((mapErr (fun _ => ()) (walkDir fs fuel node f s) >>= g fuel) d)) ↔
      ¬ Circles fs d hit node.firstCluster := by
  obtain ⟨hstop, hgo⟩ := walkDir_returns_iff (d := d) hf node s
  constructor
  · rintro ⟨fuel, hret⟩ hcirc
    rw [Exec.bind_of_error (Exec.mapErr_of_error (hgo hcirc fuel))] at hret
    exact not_returns_fuel d hret
  · intro hcirc
    obtain ⟨fuel, hret⟩ := hstop hcirc
    refine ⟨fuel, hret.mapErr.bind fun r d' hrun => ?_⟩
    have hrun := Exec.mapErr_eq_ok.1 hrun
    obtain rfl := (walkDirFrom_readOnly fs f fuel node.firstCluster s).state_eq hrun
    exact hg fuel r hrun

/-- `readdir` returns unless its walk circles. -/
theorem readdir_terminates_iff (hdir : node.isDir = true) :
    Terminates fs d node .readdir ↔ ¬ Circles fs d (fun _ => false) node.firstCluster := by
  simp only [Terminates, Fat32Node.readdir, hdir, Bool.not_true, Bool.false_eq_true, if_false]
  have hf : ∀ (e : DirEntry) (names : List String),
      ((none : Option Unit), names ++ [decode83 e.bytes]).1.isSome = false := fun _ _ => rfl
  exact scan_returns_iff hf [] fun fuel r _ => returns_ok _ _

/-- `finddir` returns unless its walk circles through entries that do not match. -/
theorem finddir_terminates_iff (hdir : node.isDir = true) :
    Terminates fs d node (.finddir name) ↔
      ¬ Circles fs d (fun e => nameMatches e.bytes name) node.firstCluster := by
  simp only [Terminates, Fat32Node.finddir, hdir, Bool.not_true, Bool.false_eq_true, if_false]
  refine scan_returns_iff (find_isSome _ nodeOf) () fun fuel r _ => ?_
  cases r.1 with
  | some n => exact returns_ok _ _
  | none => exact returns_err _ _

/-- What `create` does after its walk terminates when the walk did. -/
theorem create_terminates_iff {raw : List UInt8} (hdir : node.isDir = true)
    (hraw : to83 name = some raw) :
    Terminates fs d node (.create name) ↔
      ¬ Circles fs d (fun e => nameMatches e.bytes name) node.firstCluster := by
  simp only [Terminates, Fat32Node.create, hdir, hraw, Bool.not_true, Bool.false_eq_true, if_false]
  refine scan_returns_iff (find_isSome _ fun _ => ()) () fun fuel r hrun => ?_
  refine Sat.ite (fun _ => returns_err _ _) fun hdup => ?_
  obtain ⟨v, s'⟩ := r
  obtain rfl : v = none := by simpa using hdup
  have hslot := findFreeSlotFrom_returns node.firstCluster hrun
  refine Returns.bind (Returns.mapErr (hslot.mono (fun _ _ _ => trivial) fun _ _ h => h))
    fun slot d' hfound => ?_
  obtain ⟨h2, hlt, hoff⟩ := hslot.of_ok (Exec.mapErr_eq_ok.1 hfound)
  refine Returns.bind (Returns.mapErr (modifyCluster_returns h2 hlt fun buf hbuf => ?_))
    fun _ _ _ => returns_ok _ _
  exact length_putRecord fs slot.2 buf (length_to83 hraw) hoff hbuf

/-- A request terminates exactly when it scans no directory, or one whose chain does not come back
before the scan ends. -/
theorem terminates_iff (fs : Fat32Fs) (d : Disk) (node : Fat32Node) (r : Request) :
    Terminates fs d node r ↔ ∀ hit ∈ r.scan node, ¬ Circles fs d hit node.firstCluster := by
  cases hdir : node.isDir with
  | false =>
    have hscan : r.scan node = none := by
      cases r <;> simp [Request.scan, hdir]
    refine iff_of_true ?_ fun hit hmem => ?_
    · cases r with
      | readdir | finddir name | create name =>
        refine ⟨0, ?_⟩
        simp only [Fat32Node.readdir, Fat32Node.finddir, Fat32Node.create, hdir, Bool.not_false,
          if_true]
        exact returns_err _ _
      | read offset buffer => exact read_returns _ _ _ _
      | write offset data => exact write_halts _ _ _
    · rw [hscan] at hmem
      cases hmem
  | true =>
    cases r with
    | readdir => simp [Request.scan, hdir, readdir_terminates_iff]
    | finddir name => simp [Request.scan, hdir, finddir_terminates_iff]
    | create name =>
      cases hraw : to83 name with
      | some raw => simp [Request.scan, hdir, hraw, create_terminates_iff hdir hraw]
      | none =>
        simp only [Request.scan, hdir, hraw, Option.isSome_none, Bool.false_eq_true, and_false,
          if_false, Option.not_mem_none, false_implies, implies_true, iff_true]
        refine ⟨0, ?_⟩
        rw [Fat32Node.create, hdir, hraw]
        exact returns_err _ _
    | read offset buffer =>
      simp only [Request.scan, Option.not_mem_none, false_implies, implies_true, iff_true]
      exact read_returns _ _ _ _
    | write offset data =>
      simp only [Request.scan, Option.not_mem_none, false_implies, implies_true, iff_true]
      exact write_halts _ _ _

end

/-! ## A directory that never ends -/

/-- The drive with a boot sector that makes it the volume of `smallFs`. -/
def bootDisk (d : Disk) : Disk := d.setBytes (ByteMem.write d.bytes 0 (bootSector 1))

/-- A boot sector does not change the drive's size. -/
@[simp] theorem bootDisk_capacity (d : Disk) : (bootDisk d).capacity = d.capacity :=
  Disk.setBytes_capacity d _

/-- The boot sector is one sector. -/
theorem length_bootSector (copies : UInt8) : (bootSector copies).length = 512 := by
  simp only [bootSector, List.length_append, List.length_replicate, length_toLe, List.length_cons,
    List.length_nil]

/-- `mount` reads the small geometry from the boot sector. -/
theorem mount_bootDisk {d : Disk} (hd : 1 ≤ d.capacity) :
    Fat32Fs.mount (bootDisk d) = .ok smallFs (bootDisk d) := by
  have hsec : read (ByteMem.write d.bytes 0 (bootSector 1)) 0 512 = bootSector 1 := by
    have h := read_write_self d.bytes 0 (bootSector 1)
    rwa [length_bootSector] at h
  have hread : readSectors 0 1 (List.replicate 512 0) (bootDisk d) =
      .ok (bootSector 1) (bootDisk d) := by
    have hcap : 0 + 1 ≤ (bootDisk d).capacity := by
      rw [bootDisk_capacity]
      exact hd
    rw [readSector_run hcap, bootDisk, Disk.setBytes_bytes, Nat.mul_zero, hsec]
  rw [Fat32Fs.mount, Exec.bind_of_ok hread, parseBpb_bootSector]
  rfl

/-- The boot sector is before the FAT. -/
theorem next_bootDisk (d : Disk) (c : ℕ) : next smallFs (bootDisk d) c = next smallFs d c := by
  have hstart : 512 ≤ fatAddr smallFs 0 c := by
    rw [fatAddr, Nat.zero_mul, Nat.add_zero, show smallFs.fatStart = 1 from rfl]
    omega
  rw [next, next, fat, fat, bootDisk, Disk.setBytes_bytes,
    read_write_of_disjoint _ (.inr (by rw [length_bootSector]; omega))]

/-- A boot sector leaves the clusters. -/
theorem cluster_bootDisk (d : Disk) (c : ℕ) :
    cluster smallFs (bootDisk d) c = cluster smallFs d c := by
  have hstart : 512 ≤ dataAddr smallFs c := by
    rw [dataAddr, show smallFs.dataStart = 2 from rfl]
    omega
  rw [cluster, cluster, bootDisk, Disk.setBytes_bytes,
    read_write_of_disjoint _ (.inr (by rw [length_bootSector]; omega))]

/-- A volume whose root directory is a cluster of used records that is linked to itself. -/
def loopDisk : Disk := bootDisk (smallDisk [(2, 2, List.replicate 512 0x41)])

/-- The rows of the looping drive are well formed. -/
theorem loopDisk_rows : ∀ e ∈ [(2, 2, List.replicate 512 (0x41 : UInt8))],
    2 ≤ e.1 ∧ e.1 < 128 ∧ e.2.2.length = 512 :=
  List.forall_mem_singleton.2 ⟨le_rfl, show 2 < 128 by decide, List.length_replicate⟩

/-- `readdir` of that root directory never returns. -/
theorem loopDisk_circles : Circles smallFs loopDisk (fun _ => false) 2 := by
  have hcap : loopDisk.capacity = 128 := by
    rw [loopDisk, bootDisk_capacity, smallDisk_capacity loopDisk_rows]
  have hnext : next smallFs loopDisk 2 = 2 := by
    rw [loopDisk, next_bootDisk, next_smallDisk loopDisk_rows (by decide)]
    rfl
  have hrows : cluster smallFs loopDisk 2 = List.replicate 512 0x41 := by
    rw [loopDisk, cluster_bootDisk, cluster_smallDisk loopDisk_rows le_rfl]
    rfl
  have hpass : Passes smallFs loopDisk (fun _ => false) 2 := by
    refine ⟨⟨le_rfl, by decide, ?_, ?_⟩, ?_, fun _ _ => rfl⟩
    · rw [hcap]
      decide
    · rw [hcap]
      decide
    · rw [hrows]
      decide +kernel
  rw [circles_iff]
  intro n
  rw [Function.iterate_fixed hnext]
  exact hpass

/-- `mount` accepts the volume, and one request to its root directory does not terminate. -/
theorem readdir_loops : ¬ ∀ (d : Disk) (fs : Fat32Fs) (node : Fat32Node) (r : Request),
    Fat32Fs.mount d = .ok fs d → Terminates fs d node r := by
  intro h
  have hcap : 1 ≤ (smallDisk [(2, 2, List.replicate 512 0x41)]).capacity := by
    rw [smallDisk_capacity loopDisk_rows]
    decide
  have hret := h loopDisk smallFs smallFs.root .readdir (mount_bootDisk hcap)
  exact (readdir_terminates_iff rfl).1 hret loopDisk_circles

end Fat

end RossOs
