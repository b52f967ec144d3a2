import RossOs.Fat.Growth

/-!
# The size of a file

`write` computes the new size in 64 bits and stores it in 32. Whether a `write` goes through depends
only on the room of the volume (`write_of_room`, `write_of_full`), so the size is right exactly when
the end of the data is below 2^32, or when the volume is too small for it (`sizeKept_iff`).
-/

namespace RossOs

open ByteMem

namespace Fat

/-- The size that a `write` leaves: the larger one of the old size and the end of the data, in the
node and in its record; and an end that 32 bits do not hold is an error. -/
structure SizeKept (fs : Fat32Fs) (h : Handle) (offset : ℕ) (data : List UInt8) : Prop where
  stored : ∀ n h', write fs offset data h = .ok n h' →
    h'.node.size = max h.node.size (offset + data.length) ∧
    (entryNode fs h'.disk h.node.parentCluster h.node.dirEntryOffset).size =
      max h.node.size (offset + data.length)
  error : 2 ^ 32 ≤ offset + data.length → ∃ h', write fs offset data h = .error (.err ()) h'

/-- The free clusters of a volume. -/
def freeClusters (fs : Fat32Fs) (d : Disk) : List ℕ :=
  (List.range fs.entries).filter fun c => 2 ≤ c ∧ next fs d c = 0

section
variable {fs : Fat32Fs} {d d' : Disk} {node : Fat32Node} {cs cs' : List ℕ} {p offset c : ℕ}
  {data : List UInt8} {h : Handle}

/-- The free clusters are those of the volume whose entry is zero. -/
theorem mem_freeClusters : c ∈ freeClusters fs d ↔ fs.InRange c ∧ next fs d c = 0 := by
  rw [freeClusters, List.mem_filter, List.mem_range, decide_eq_true_iff, Fat32Fs.InRange]
  tauto

/-- A cluster is free once. -/
theorem nodup_freeClusters : (freeClusters fs d).Nodup := List.nodup_range.filter _

/-- A chain grows by free clusters. -/
theorem Grows.length_le (h : Grows fs p d cs d' cs') :
    cs'.length ≤ cs.length + (freeClusters fs d).length := by
  obtain ⟨new, rfl, hnew⟩ := h.new
  have hsub : new ⊆ freeClusters fs d := fun x hx => mem_freeClusters.2 (hnew x hx)
  have hnodup : new.Nodup := (List.nodup_append.1 h.nodup).2.1
  have hle := (hnodup.subperm hsub).length_le
  rw [List.length_append]
  omega

/-- A chain that leaves no cluster free has taken them all. -/
theorem Grows.le_length (h : Grows fs p d cs d' cs') (hcopies : 1 ≤ fs.bpb.numFats)
    (hused : ∀ x ∈ cs, next fs d x ≠ 0) (hfull : firstFree fs d' = none) :
    cs.length + (freeClusters fs d).length ≤ cs'.length := by
  obtain ⟨new, rfl, -⟩ := h.new
  have hsub : freeClusters fs d ⊆ new := by
    intro x hx
    obtain ⟨hin, hfree⟩ := mem_freeClusters.1 hx
    by_contra hout
    have hmem : x ∉ cs ++ new := fun hmem =>
      (List.mem_append.1 hmem).elim (fun hx => hused x hx hfree) hout
    have hnext := h.next_eq hcopies hin.2 hmem
    exact firstFree_none hfull hin (hnext.trans hfree)
  have hle := (nodup_freeClusters.subperm hsub).length_le
  rw [List.length_append]
  omega

/-- The clusters of a file are in use. -/
theorem FileNode.used_of_mem (hn : FileNode fs d node cs) : ∀ x ∈ cs, next fs d x ≠ 0 := by
  intro x hx
  rcases hn.chain with ⟨-, rfl⟩ | hchain
  · cases hx
  · exact hchain.next_ne_zero hx

section
variable (hfits : fs.Fits h.disk.capacity) (hn : FileNode fs h.disk h.node cs) (hdata : data ≠ [])
  (h64 : offset + data.length < 2 ^ 64)

include hfits hn hdata h64

/-- A `write` goes through when the chain and the free clusters hold the data. -/
theorem write_of_room (hroom : offset + data.length ≤
    (cs.length + (freeClusters fs h.disk).length) * fs.clusterSizeBytes) :
    ∃ n h', write fs offset data h = .ok n h' := by
  have hstore : Exec.Sat (storeData fs offset data h) _ _ := storeData_sat hfits hn hdata
  rw [write_eq hn.file hdata h64]
  cases hrun : storeData fs offset data h with
  | error e h₁ =>
    rw [hrun] at hstore
    obtain ⟨-, cs', m, hw, -, hfull, hlt⟩ := Exec.sat_error.1 hstore
    have hle := Nat.mul_le_mul_right fs.clusterSizeBytes
      (hw.grows.le_length hfits.copies hn.used_of_mem hfull)
    omega
  | ok n h₁ =>
    rw [hrun] at hstore
    obtain ⟨-, cs', hw, -⟩ := Exec.sat_ok.1 hstore
    rw [Exec.bind_of_ok hrun]
    by_cases hgrow : h.node.size < max (offset + data.length) h.node.size
    · rw [if_pos hgrow, Exec.bind_of_ok (Exec.modify_apply _ _),
        Exec.bind_of_ok (hw.updateSize_run hfits _)]
      exact ⟨n, _, rfl⟩
    · rw [if_neg hgrow]
      exact ⟨n, h₁, rfl⟩

/-- A `write` fails when the chain and the free clusters do not hold the data. -/
theorem write_of_full (hfull : (cs.length + (freeClusters fs h.disk).length) * fs.clusterSizeBytes <
    offset + data.length) : ∃ h', write fs offset data h = .error (.err ()) h' := by
  have hstore : Exec.Sat (storeData fs offset data h) _ _ := storeData_sat hfits hn hdata
  rw [write_eq hn.file hdata h64]
  cases hrun : storeData fs offset data h with
  | error e h₁ =>
    rw [hrun] at hstore
    obtain ⟨⟨msg, rfl⟩, -⟩ := Exec.sat_error.1 hstore
    exact ⟨h₁, Exec.bind_of_error hrun⟩
  | ok n h₁ =>
    rw [hrun] at hstore
    obtain ⟨-, cs', hw, -, hcover, -⟩ := Exec.sat_ok.1 hstore
    have hle := Nat.mul_le_mul_right fs.clusterSizeBytes hw.grows.length_le
    omega

end

/-- A `write` whose end leaves 64 bits panics. -/
theorem write_of_overflow (hfile : h.node.isDir = false) (hdata : data ≠ [])
    (h64 : 2 ^ 64 ≤ offset + data.length) : write fs offset data h = .error .panic h := by
  rw [write, Exec.bind_of_ok (Exec.get_apply h)]
  simp only
  rw [if_neg (by simp [hfile, hdata]), if_pos h64]
  rfl

/-- An end below 2^32 is kept. -/
theorem Target.sizeKept (ht : Target fs d node cs) (hfits : fs.Fits d.capacity) (hdata : data ≠ [])
    (hsize : offset + data.length < 2 ^ 32) : SizeKept fs ⟨node, d⟩ offset data := by
  refine ⟨fun n h' hrun => ?_, fun hlarge => absurd hsize (by omega)⟩
  have hsat : Exec.Sat (write fs offset data ⟨node, d⟩) _ _ := write_sat hfits ht.file hdata hsize
  rw [hrun] at hsat
  obtain ⟨-, cs', hw, hnew, -⟩ := Exec.sat_ok.1 hsat
  have hlt := ht.size_lt
  have hentry := ht.entry_after hfits hw (hnew.trans_lt (max_lt hsize hlt))
  rw [max_comm] at hnew
  exact ⟨hnew, by rw [hentry, hnew]⟩

/-- A file of 4 GiB or more that the volume has room for. -/
theorem not_sizeKept_of_room (hfits : fs.Fits d.capacity) (hn : FileNode fs d node cs)
    (hdata : data ≠ []) (hlarge : 2 ^ 32 ≤ offset + data.length)
    (h64 : offset + data.length < 2 ^ 64) (hroom : offset + data.length ≤
      (cs.length + (freeClusters fs d).length) * fs.clusterSizeBytes) :
    ¬ SizeKept fs ⟨node, d⟩ offset data := by
  intro hkept
  obtain ⟨h', herr⟩ := hkept.error hlarge
  obtain ⟨n, h'', hok⟩ := write_of_room (h := ⟨node, d⟩) hfits hn hdata h64 hroom
  rw [herr] at hok
  cases hok

/-- A `write` to a file keeps the size right exactly when the end of the data is below 2^32, or when
the volume has no room for it. -/
theorem sizeKept_iff (h : WellFormed fs d)
    (hnode : Obtained fs (fun d c => c < 2 ∨ IsDir live fs d c) d node) (hfile : node.isDir = false)
    (hcs : DirChain fs d node.firstCluster cs) (hdata : data ≠ []) :
    SizeKept fs ⟨node, d⟩ offset data ↔ offset + data.length < 2 ^ 32 ∨
      offset + data.length < 2 ^ 64 ∧
        (cs.length + (freeClusters fs d).length) * fs.clusterSizeBytes < offset + data.length := by
  obtain ⟨cs', ht⟩ := h.target_of_obtained hnode hfile
  obtain rfl := ht.file.chain.unique h.fits hcs
  constructor
  · intro hkept
    by_contra hnot
    have hlarge : 2 ^ 32 ≤ offset + data.length := by omega
    by_cases h64 : offset + data.length < 2 ^ 64
    · have hroom : offset + data.length ≤
          (cs'.length + (freeClusters fs d).length) * fs.clusterSizeBytes := by omega
      exact not_sizeKept_of_room h.fits ht.file hdata hlarge h64 hroom hkept
    · obtain ⟨h', hrun⟩ := hkept.error hlarge
      rw [write_of_overflow hfile hdata (Nat.not_lt.1 h64)] at hrun
      cases hrun
  · rintro (hsize | ⟨h64, hfull⟩)
    · exact ht.sizeKept h.fits hdata hsize
    · obtain ⟨h', hrun⟩ := write_of_full (h := ⟨node, d⟩) h.fits ht.file hdata h64 hfull
      refine ⟨fun n h'' hok => ?_, fun _ => ⟨h', hrun⟩⟩
      rw [hrun] at hok
      cases hok

end

/-- A byte into an empty file. -/
theorem sizeKept_empty_file : SizeKept smallFs ⟨emptyNode, emptyFileDisk⟩ 0 [7] :=
  (sizeKept_iff wellFormed_emptyFileDisk
    (.finddir (.finddir .root finddir_emptyFileDisk nofun)) rfl (.inl ⟨by decide, rfl⟩)
    (List.cons_ne_nil 7 [])).2 (.inl (by decide))

/-! ## A file of 4 GiB -/

/-- A volume of 2^24 clusters, the first one the root directory. -/
def wideFs : Fat32Fs where
  bpb := { smallFs.bpb with fatSizeSectors := 0x20000, fatSizeSectors_lt := by decide }

/-- A root directory with an empty file `a`, and nothing else. -/
def wideDisk : Disk :=
  setCluster wideFs (setFat wideFs ⟨2 ^ 25, by decide, fun _ => 0⟩ 2 0x0FFFFFFF) 2
    (smallRows [record (oneLetter 0x41) 0x20 0 0])

/-- The wide drive has all sectors of its volume. -/
theorem wideDisk_fits : wideFs.Fits wideDisk.capacity := by
  have hcap : wideDisk.capacity = 2 ^ 25 := by
    rw [wideDisk, setCluster_capacity, setFat_capacity (by decide)]
  refine ⟨le_rfl, by decide, fun c hc => ?_⟩
  have hlt : c < 2 ^ 24 := hc.2
  show 0x20001 + (c - 2) * 1 + 1 ≤ wideDisk.capacity
  omega

/-- Only the root directory's cluster is in use there. -/
theorem next_wideDisk {x : ℕ} (hx : x < wideFs.entries) :
    next wideFs wideDisk x = if x = 2 then 0x0FFFFFFF else 0 := by
  have hzero : next wideFs ⟨2 ^ 25, by decide, fun _ => 0⟩ x = 0 := by
    rw [next, fat]
    show leNat (List.replicate 4 0) % 2 ^ 28 = 0
    rw [leNat_replicate_zero, Nat.zero_mod]
  rw [wideDisk, next_setCluster le_rfl hx, next_setFat le_rfl (by decide) hx, hzero,
    Nat.mod_eq_of_lt (by decide)]

/-- The root directory has one cluster there. -/
theorem fatChain_wideDisk : FatChain wideFs wideDisk 2 [2] := by
  refine .last (by decide) ?_
  rw [next_wideDisk (by decide)]
  decide

/-- The directory of the wide drive has the record of an empty file. -/
theorem dirSlots_wideDisk : dirSlots wideFs wideDisk [2] =
    slotsOf smallFs (smallRows [record (oneLetter 0x41) 0x20 0 0]) 2 := by
  rw [dirSlots_singleton, wideDisk, cluster_setCluster emptyFileDisk_rows le_rfl le_rfl, if_pos rfl]
  rfl

/-- Its only entry is an empty file. -/
theorem live_wideDisk : live (dirSlots wideFs wideDisk [2]) =
    [⟨record (oneLetter 0x41) 0x20 0 0, 2, 0⟩] := by
  rw [dirSlots_wideDisk]
  decide +kernel

/-- The wide drive is well-formed. -/
theorem wellFormed_wideDisk : WellFormed wideFs wideDisk :=
  wellFormed_of_oneFile wideDisk_fits fatChain_wideDisk live_wideDisk
    ⟨by decide, .inl ⟨by decide, rfl⟩, fun _ _ => List.not_mem_nil, by decide⟩

/-- A lookup of `a` yields the empty file. -/
theorem finddir_wideDisk :
    wideFs.root.finddir wideFs 1 "a" wideDisk = .ok emptyNode wideDisk := by
  have hlook : lookup (dirSlots wideFs wideDisk [2]) "a" =
      some ⟨record (oneLetter 0x41) 0x20 0 0, 2, 0⟩ := by
    rw [dirSlots_wideDisk]
    decide +kernel
  exact finddir_of_lookup wideDisk_fits (.inr fatChain_wideDisk) rfl hlook le_rfl

/-- The empty file has no clusters. -/
theorem fileNode_wideDisk : FileNode wideFs wideDisk emptyNode [] where
  file := rfl
  chain := .inl ⟨by decide, rfl⟩
  parent := by decide
  used := fatChain_wideDisk.next_ne_zero (List.mem_singleton.2 rfl)
  apart := List.not_mem_nil
  offset := by decide

/-- All clusters but the one of the root directory are free. -/
theorem length_freeClusters_wideDisk : 2 ^ 24 - 3 ≤ (freeClusters wideFs wideDisk).length := by
  have hsub : List.range' 3 (2 ^ 24 - 3) ⊆ freeClusters wideFs wideDisk := by
    intro x hx
    rw [List.mem_range'_1] at hx
    have hlt : x < wideFs.entries := show x < 2 ^ 24 by omega
    refine mem_freeClusters.2 ⟨⟨by omega, hlt⟩, ?_⟩
    rw [next_wideDisk hlt, if_neg (by omega)]
  have hle := ((List.nodup_range' 1 Nat.one_pos).subperm hsub).length_le
  rwa [List.length_range'] at hle

/-- A byte at the offset 2^32 - 1 of an empty file: the `write` goes through, and the size of 4 GiB
is cut to 0. -/
theorem size_cut : ¬ ∀ (fs : Fat32Fs) (d : Disk) (node : Fat32Node) (offset : ℕ)
    (data : List UInt8), WellFormed fs d →
    Obtained fs (fun d c => c < 2 ∨ IsDir live fs d c) d node → node.isDir = false →
    offset < 2 ^ 64 → data ≠ [] → SizeKept fs ⟨node, d⟩ offset data := by
  intro hall
  have hkept := hall wideFs wideDisk emptyNode (2 ^ 32 - 1) [7] wellFormed_wideDisk
    (.finddir (.finddir .root finddir_wideDisk nofun)) rfl (by decide) (List.cons_ne_nil 7 [])
  have hlen : 2 ^ 32 - 1 + [(7 : UInt8)].length = 2 ^ 32 := rfl
  have hcb : wideFs.clusterSizeBytes = 512 := rfl
  have hfree := Nat.mul_le_mul_right 512 length_freeClusters_wideDisk
  refine not_sizeKept_of_room wideDisk_fits fileNode_wideDisk (List.cons_ne_nil 7 []) hlen.ge
    (by omega) ?_ hkept
  rw [List.length_nil, Nat.zero_add, hcb]
  omega

end Fat

end RossOs
