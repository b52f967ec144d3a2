import RossOs.Fat.Dir
import RossOs.Fat.File

/-!
# Writing a file

What `Fat32Node::write` does to a volume, also when it stops on a full disk: the chain of the file
grows by clusters that were free, the file's bytes are overlaid with the data, and nothing else
changes but the record of the file (`write_sat`). `Grows` is the part of this that all steps of the
call share.
-/

namespace RossOs

open ByteMem Ahci

namespace Fat

/-! ## The bytes of a chain -/

section
variable {fs : Fat32Fs} {d d' : Disk} {cs : List ℕ} {c x k i : ℕ}

/-- A byte of a row of clusters. -/
theorem getD_clusters (cs : List ℕ) (i : ℕ) : (clusters fs d cs).getD i 0 =
    (cs[i / fs.clusterSizeBytes]?).elim 0 fun x =>
      (cluster fs d x).getD (i % fs.clusterSizeBytes) 0 := by
  have hpos := fs.clusterSizeBytes_pos
  induction cs generalizing i with
  | nil => rfl
  | cons c cs ih =>
    rw [clusters, List.flatMap_cons]
    rcases Nat.lt_or_ge i fs.clusterSizeBytes with hlt | hge
    · rw [List.getD_append _ _ _ _ (by rwa [length_cluster]), Nat.div_eq_of_lt hlt,
        Nat.mod_eq_of_lt hlt]
      rfl
    · rw [List.getD_append_right _ _ _ _ (by rwa [length_cluster]), length_cluster,
        Nat.div_eq_sub_div hpos hge, Nat.mod_eq_sub_mod hge]
      exact ih _

/-- The bytes of clusters depend on these clusters only. -/
theorem clusters_congr (h : ∀ c ∈ cs, cluster fs d' c = cluster fs d c) :
    clusters fs d' cs = clusters fs d cs := by
  rw [clusters, clusters]
  exact List.flatMap_congr h

/-- A splice into one cluster of a row. -/
theorem overlaid_setCluster (hcs : ∀ c ∈ cs, 2 ≤ c) (hnodup : cs.Nodup) (hk : cs[k]? = some c)
    {off : ℕ} {src : List UInt8} (hoff : off + src.length ≤ fs.clusterSizeBytes) :
    Overlaid (clusters fs d cs) (k * fs.clusterSizeBytes + off) src
      (clusters fs (setCluster fs d c (splice (cluster fs d c) off src)) cs) := by
  intro i
  have hpos := fs.clusterSizeBytes_pos
  have hlen : (splice (cluster fs d c) off src).length = fs.clusterSizeBytes := by
    rw [length_splice (by rwa [length_cluster]), length_cluster]
  have hc := hcs c (List.mem_of_getElem? hk)
  have hdiv := Nat.div_add_mod i fs.clusterSizeBytes
  have hmod := Nat.mod_lt i hpos
  rw [getD_clusters, getD_clusters]
  generalize hq : i / fs.clusterSizeBytes = q at hdiv
  generalize i % fs.clusterSizeBytes = j at hdiv hmod
  rw [Nat.mul_comm] at hdiv
  have hmul : ∀ {a b : ℕ}, a < b → a * fs.clusterSizeBytes + fs.clusterSizeBytes ≤
      b * fs.clusterSizeBytes := fun {a b} hab => by
    rw [← Nat.succ_mul]
    exact Nat.mul_le_mul_right _ hab
  by_cases hqk : q = k
  · subst hqk
    rw [hk, Option.elim_some, Option.elim_some, cluster_setCluster hlen hc hc, if_pos rfl,
      getD_splice (by rwa [length_cluster])]
    by_cases hin : off ≤ j ∧ j < off + src.length
    · rw [if_pos hin, if_pos (by omega)]
      congr 1
      omega
    · rw [if_neg hin, if_neg (by omega)]
  · have hout : ¬ (k * fs.clusterSizeBytes + off ≤ i ∧
        i < k * fs.clusterSizeBytes + off + src.length) := by
      rcases Nat.lt_or_gt_of_ne hqk with hlt | hlt
      · have := hmul hlt
        omega
      · have := hmul hlt
        omega
    rw [if_neg hout]
    cases hy : cs[q]? with
    | none => rfl
    | some y =>
      have hne : y ≠ c := by
        rintro rfl
        obtain ⟨hq', hyq⟩ := List.getElem?_eq_some_iff.1 hy
        obtain ⟨hk', hyk⟩ := List.getElem?_eq_some_iff.1 hk
        exact hqk ((hnodup.getElem_inj_iff).1 (hyq.trans hyk.symm))
      rw [Option.elim_some, Option.elim_some,
        cluster_setCluster hlen hc (hcs y (List.mem_of_getElem? hy)), if_neg hne]

/-- Zero clusters at the end of a row. -/
theorem overlaid_append_zeros (hold : ∀ c ∈ cs, cluster fs d' c = cluster fs d c)
    (hnew : cluster fs d' x = List.replicate fs.clusterSizeBytes 0) (pos : ℕ) :
    Overlaid (clusters fs d cs) pos [] (clusters fs d' (cs ++ [x])) := by
  refine Overlaid.nil_iff.2 fun i => ?_
  rw [clusters, List.flatMap_append, ← clusters, clusters_congr hold, List.flatMap_singleton, hnew]
  rcases Nat.lt_or_ge i (clusters fs d cs).length with hlt | hge
  · rw [List.getD_append _ _ _ _ hlt]
  · rw [List.getD_append_right _ _ _ _ hge, List.getD_eq_default _ _ hge]
    simp only [List.getD_eq_getElem?_getD, List.getElem?_replicate]
    split <;> rfl

end

/-! ## What a step may change -/

/-- The copies of the FAT are equal. -/
def CopiesEqual (fs : Fat32Fs) (d : Disk) : Prop :=
  ∀ f < fs.bpb.numFats, ∀ x < fs.entries, fat fs d f x = fat fs d 0 x

/-- From `d` to `d'` the row of clusters `cs` grew to `cs'` by clusters that were free. Besides,
only the link of its last cluster and the bytes of its clusters and of the cluster `p` changed. -/
structure Grows (fs : Fat32Fs) (p : ℕ) (d : Disk) (cs : List ℕ) (d' : Disk) (cs' : List ℕ) :
    Prop where
  capacity : d'.capacity = d.capacity
  new : ∃ new, cs' = cs ++ new ∧ ∀ x ∈ new, fs.InRange x ∧ next fs d x = 0
  nodup : cs'.Nodup
  fat : ∀ f < fs.bpb.numFats, ∀ x < fs.entries, x ∉ cs' ∨ x ∈ cs ∧ cs.getLast? ≠ some x →
    Fat.fat fs d' f x = Fat.fat fs d f x
  top : ∀ f < fs.bpb.numFats, ∀ x < fs.entries,
    Fat.fat fs d' f x / 2 ^ 28 = Fat.fat fs d f x / 2 ^ 28
  copies : CopiesEqual fs d → CopiesEqual fs d'
  cluster : ∀ x, 2 ≤ x → x ∉ cs' → x ≠ p → Fat.cluster fs d' x = Fat.cluster fs d x

section
variable {fs : Fat32Fs} {p a c : ℕ} {d d' d'' : Disk} {cs cs' cs'' : List ℕ}

/-- A row of clusters that did not grow. -/
theorem Grows.refl (hnodup : cs.Nodup) : Grows fs p d cs d cs where
  capacity := rfl
  new := ⟨[], (List.append_nil _).symm, nofun⟩
  nodup := hnodup
  fat := fun _ _ _ _ _ => rfl
  top := fun _ _ _ _ => rfl
  copies := id
  cluster := fun _ _ _ _ => rfl

/-- The clusters of the row stay in it. -/
theorem Grows.subset (h : Grows fs p d cs d' cs') : ∀ {x}, x ∈ cs → x ∈ cs' := by
  obtain ⟨new, rfl, -⟩ := h.new
  exact fun hx => List.mem_append_left _ hx

/-- A row that grew and grew again has grown. -/
theorem Grows.trans (hcopies : 1 ≤ fs.bpb.numFats) (h : Grows fs p d cs d' cs')
    (h' : Grows fs p d' cs' d'' cs'') : Grows fs p d cs d'' cs'' := by
  obtain ⟨new, hnew, hfree⟩ := h.new
  obtain ⟨new', hnew', hfree'⟩ := h'.new
  have hnodup := h'.nodup
  refine ⟨h'.capacity.trans h.capacity, ⟨new ++ new', ?_, fun x hx => ?_⟩, hnodup,
    fun f hf x hx hkeep => ?_, fun f hf x hx => (h'.top f hf x hx).trans (h.top f hf x hx),
    fun hc => h'.copies (h.copies hc), fun x hx hmem hp => ?_⟩
  · rw [hnew', hnew, List.append_assoc]
  · rcases List.mem_append.1 hx with hx | hx
    · exact hfree x hx
    · obtain ⟨hin, h0⟩ := hfree' x hx
      refine ⟨hin, ?_⟩
      rw [hnew'] at hnodup
      have hnot : x ∉ cs' := fun hmem => (List.nodup_append.1 hnodup).2.2 x hmem x hx rfl
      rw [next] at h0 ⊢
      rwa [← h.fat 0 hcopies x hin.2 (.inl hnot)]
  · have hkeep' : x ∉ cs' ∨ x ∈ cs ∧ cs.getLast? ≠ some x :=
      hkeep.imp_left fun hmem hx' => hmem (h'.subset hx')
    rw [h'.fat f hf x hx, h.fat f hf x hx hkeep']
    rcases hkeep with hmem | ⟨hmem, hlast⟩
    · exact .inl hmem
    · refine .inr ⟨h.subset hmem, fun hlast' => ?_⟩
      rw [hnew] at hlast'
      cases hn : new with
      | nil =>
        rw [hn, List.append_nil] at hlast'
        exact hlast hlast'
      | cons y ys =>
        rw [hn, List.getLast?_append_of_ne_nil _ (List.cons_ne_nil _ _)] at hlast'
        have hx' := List.mem_of_getLast? hlast'
        have hnd := h.nodup
        rw [hnew, hn] at hnd
        exact (List.nodup_append.1 hnd).2.2 x hmem x hx' rfl
  · rw [h'.cluster x hx hmem hp, h.cluster x hx (fun hx' => hmem (h'.subset hx')) hp]

/-- A cluster that is neither free nor in the row keeps its link, and stays out of the row. -/
theorem Grows.notMem (h : Grows fs p d cs d' cs') {x : ℕ} (hx : x ∉ cs) (h0 : next fs d x ≠ 0) :
    x ∉ cs' := by
  obtain ⟨new, rfl, hfree⟩ := h.new
  intro hmem
  rcases List.mem_append.1 hmem with hmem | hmem
  · exact hx hmem
  · exact h0 (hfree x hmem).2

/-- The links of clusters outside the row stay. -/
theorem Grows.next_eq (hcopies : 1 ≤ fs.bpb.numFats) (h : Grows fs p d cs d' cs') {x : ℕ}
    (hx : x < fs.entries) (hmem : x ∉ cs') : next fs d' x = next fs d x := by
  rw [next, next, h.fat 0 hcopies x hx (.inl hmem)]

/-- A chain apart from the row survives, and stays apart. -/
theorem Grows.fatChain (hcopies : 1 ≤ fs.bpb.numFats) (h : Grows fs p d cs d' cs') {l : List ℕ}
    (hl : FatChain fs d a l) (hdisj : ∀ x ∈ l, x ∉ cs) : FatChain fs d' a l ∧ ∀ x ∈ l, x ∉ cs' := by
  have hout : ∀ x ∈ l, x ∉ cs' := fun x hx => h.notMem (hdisj x hx) (hl.next_ne_zero hx)
  exact ⟨hl.of_next_eq fun x hx => h.next_eq hcopies (hl.mem_in x hx).2 (hout x hx), hout⟩

end

/-! ## The steps -/

section
variable {fs : Fat32Fs} {p a c k : ℕ} {d : Disk} {cs : List ℕ} (hfits : fs.Fits d.capacity)

include hfits

/-- A cluster number of the volume has 28 bits. -/
theorem lt_of_inRange {x : ℕ} (hx : fs.InRange x) : x < 2 ^ 28 := by
  have := hfits.entries_le
  have := hx.2
  omega

/-- An allocation keeps the top bits of the links, and the copies equal. -/
theorem allocated_top {prev : Option ℕ} (hin : fs.InRange c) (hprev : ∀ p ∈ prev, p < fs.entries) :
    (∀ f < fs.bpb.numFats, ∀ x < fs.entries,
      fat fs (allocated fs d prev c) f x / 2 ^ 28 = fat fs d f x / 2 ^ 28) ∧
    (CopiesEqual fs d → CopiesEqual fs (allocated fs d prev c)) := by
  have hlt := lt_of_inRange hfits hin
  refine ⟨fun f hf x hx => ?_, fun hcopies f hf x hx => ?_⟩
  · rw [fat_allocated hin hprev hf hx]
    split
    · omega
    · split
      · omega
      · rfl
  · rw [fat_allocated hin hprev hf hx, fat_allocated hin hprev hfits.copies hx, hcopies f hf x hx]

/-- A cluster at the end of the chain. -/
theorem grows_allocated (hchain : FatChain fs d a cs) {last : ℕ} (hlast : cs.getLast? = some last)
    (hfree : firstFree fs d = some c) : Grows fs p d cs (allocated fs d (some last) c) (cs ++ [c]) ∧
      FatChain fs (allocated fs d (some last) c) a (cs ++ [c]) ∧
      ∀ pos, Overlaid (clusters fs d cs) pos []
        (clusters fs (allocated fs d (some last) c) (cs ++ [c])) := by
  obtain ⟨hin, h0⟩ := firstFree_some hfree
  have hprev : ∀ q ∈ some last, q < fs.entries := fun q hq =>
    Option.some.inj hq ▸ (hchain.mem_in last (List.mem_of_getLast? hlast)).2
  have hchain' := hchain.allocated hfits hlast hfree
  have hcap := allocated_capacity (d := d) hin hprev
  have hout := hchain.firstFree_notMem hfree
  refine ⟨⟨hcap, ⟨[c], rfl, ?_⟩, hchain'.nodup (hcap ▸ hfits), fun f hf x hx hkeep => ?_,
    (allocated_top hfits hin hprev).1, (allocated_top hfits hin hprev).2, fun x hx hmem _ => ?_⟩,
    hchain', fun pos => ?_⟩
  · rintro x hx
    obtain rfl := List.mem_singleton.1 hx
    exact ⟨hin, h0⟩
  · rw [fat_allocated hin hprev hf hx]
    rcases hkeep with hmem | ⟨hmem, hne⟩
    · have hxl : some last ≠ some x := by
        rintro ⟨rfl⟩
        exact hmem (List.mem_append_left _ (List.mem_of_getLast? hlast))
      have hxc : x ≠ c := by
        rintro rfl
        exact hmem (List.mem_append_right _ (List.mem_singleton.2 rfl))
      rw [if_neg hxl, if_neg hxc]
    · have hxl : some last ≠ some x := fun h => hne (hlast.trans h)
      have hxc : x ≠ c := by
        rintro rfl
        exact hout hmem
      rw [if_neg hxl, if_neg hxc]
  · rw [cluster_allocated hin hprev hx, if_neg]
    rintro rfl
    exact hmem (List.mem_append_right _ (List.mem_singleton.2 rfl))
  · refine overlaid_append_zeros (fun x hx => ?_) ?_ pos
    · rw [cluster_allocated hin hprev (hchain.mem_in x hx).1, if_neg]
      rintro rfl
      exact hout hx
    · rw [cluster_allocated hin hprev hin.1, if_pos rfl]

/-- The first cluster of a file. -/
theorem grows_first (hfree : firstFree fs d = some c) :
    Grows fs p d [] (allocated fs d none c) [c] ∧ FatChain fs (allocated fs d none c) c [c] ∧
      ∀ pos, Overlaid [] pos [] (clusters fs (allocated fs d none c) [c]) := by
  obtain ⟨hin, h0⟩ := firstFree_some hfree
  have hprev : ∀ q ∈ (none : Option ℕ), q < fs.entries := nofun
  have hcap := allocated_capacity (d := d) hin hprev
  refine ⟨⟨hcap, ⟨[c], rfl, ?_⟩, List.nodup_singleton c, fun f hf x hx hkeep => ?_,
    (allocated_top hfits hin hprev).1, (allocated_top hfits hin hprev).2, fun x hx hmem _ => ?_⟩,
    Chain.last hin ?_, fun pos => ?_⟩
  · rintro x hx
    obtain rfl := List.mem_singleton.1 hx
    exact ⟨hin, h0⟩
  · rw [fat_allocated hin hprev hf hx, if_neg nofun, if_neg]
    rintro rfl
    rcases hkeep with hmem | ⟨hmem, -⟩
    · exact hmem (List.mem_singleton.2 rfl)
    · cases hmem
  · rw [cluster_allocated hin hprev hx, if_neg]
    rintro rfl
    exact hmem (List.mem_singleton.2 rfl)
  · rw [next_allocated hfits.copies hin (lt_of_inRange hfits hin) hprev hin.2, if_neg nofun,
      if_pos rfl]
    decide
  · have hold : ∀ x ∈ ([] : List ℕ), cluster fs (allocated fs d none c) x = cluster fs d x := nofun
    refine overlaid_append_zeros hold ?_ pos
    rw [cluster_allocated hin hprev hin.1, if_pos rfl]

/-- Bytes of a cluster of the row, or of the cluster `p`. -/
theorem grows_setCluster (hnodup : cs.Nodup) (hc : 2 ≤ c) (hmem : c ∈ cs ∨ c = p)
    {bs : List UInt8} (hbs : bs.length = fs.clusterSizeBytes) :
    Grows fs p d cs (setCluster fs d c bs) cs where
  capacity := setCluster_capacity
  new := ⟨[], (List.append_nil _).symm, nofun⟩
  nodup := hnodup
  fat := fun f hf x hx _ => fat_setCluster hx hf
  top := fun f hf x hx => by rw [fat_setCluster hx hf]
  copies := fun hcopies f hf x hx => by
    rw [fat_setCluster hx hf, fat_setCluster hx hfits.copies, hcopies f hf x hx]
  cluster := fun x hx hx' hp => by
    rw [cluster_setCluster hbs hc hx, if_neg]
    rintro rfl
    exact hmem.elim hx' hp

end

/-- The chain `cs` from `a` on grew to `cs'`, with the data over its bytes; nothing else changed. -/
structure Stored (fs : Fat32Fs) (a : ℕ) (d : Disk) (cs : List ℕ) (pos : ℕ) (data : List UInt8)
    (d' : Disk) (cs' : List ℕ) : Prop where
  grows : Grows fs 0 d cs d' cs'
  chain : FatChain fs d' a cs'
  bytes : Overlaid (clusters fs d cs) pos data (clusters fs d' cs')

section
variable {fs : Fat32Fs} {a c k pos : ℕ} {d d' d'' : Disk} {cs cs' cs'' : List ℕ}
  {xs ys : List UInt8} (hfits : fs.Fits d.capacity)

/-- A drive with all sectors of the volume still has them. -/
theorem Stored.fits (h : Stored fs a d cs pos xs d' cs') (hfits : fs.Fits d.capacity) :
    fs.Fits d'.capacity := by
  rwa [h.grows.capacity]

include hfits

/-- Storing nothing leaves the chain. -/
theorem Stored.refl (hchain : FatChain fs d a cs) (pos : ℕ) : Stored fs a d cs pos [] d cs :=
  ⟨.refl (hchain.nodup hfits), hchain, .refl _ _⟩

/-- Data stored behind data is stored as one. -/
theorem Stored.append (h : Stored fs a d cs pos xs d' cs')
    (h' : Stored fs a d' cs' (pos + xs.length) ys d'' cs'') :
    Stored fs a d cs pos (xs ++ ys) d'' cs'' :=
  ⟨h.grows.trans hfits.copies h'.grows, h'.chain, h.bytes.append h'.bytes⟩

/-- The data from `w` on, in two pieces. -/
theorem Stored.drop_append {data : List UInt8} {w t pos' : ℕ}
    (h : Stored fs a d cs pos ((data.drop w).take t) d' cs')
    (hpos : pos + ((data.drop w).take t).length = pos')
    (h' : Stored fs a d' cs' pos' (data.drop (w + t)) d'' cs'') :
    Stored fs a d cs pos (data.drop w) d'' cs'' := by
  subst hpos
  have hall := h.append hfits h'
  rwa [← List.drop_drop, List.take_append_drop] at hall

/-- A part of the data from `w` on, in two pieces. -/
theorem Stored.take_append {data : List UInt8} {w t m pos' : ℕ}
    (h : Stored fs a d cs pos ((data.drop w).take t) d' cs')
    (hpos : pos + ((data.drop w).take t).length = pos')
    (h' : Stored fs a d' cs' pos' ((data.drop (w + t)).take m) d'' cs'') :
    Stored fs a d cs pos ((data.drop w).take (t + m)) d'' cs'' := by
  subst hpos
  have hall := h.append hfits h'
  rwa [← List.drop_drop, ← List.take_add] at hall

/-- Growth alone, before the data or after it. -/
theorem Stored.of_growth (h : Stored fs a d cs pos [] d' cs')
    (h' : Stored fs a d' cs' pos ys d'' cs'') : Stored fs a d cs pos ys d'' cs'' :=
  ⟨h.grows.trans hfits.copies h'.grows, h'.chain, h.bytes.of_zeros h'.bytes⟩

/-- Data stays stored when the chain grows behind it. -/
theorem Stored.then_growth (h : Stored fs a d cs pos xs d' cs')
    (h' : Stored fs a d' cs' pos [] d'' cs'') : Stored fs a d cs pos xs d'' cs'' :=
  ⟨h.grows.trans hfits.copies h'.grows, h'.chain, h.bytes.then_zeros h'.bytes⟩

omit hfits in
/-- Storing nothing is the same at every position. -/
theorem Stored.growth_pos (h : Stored fs a d cs pos [] d' cs') (pos' : ℕ) :
    Stored fs a d cs pos' [] d' cs' :=
  ⟨h.grows, h.chain, Overlaid.nil_iff.2 (Overlaid.nil_iff.1 h.bytes)⟩

/-- The step to the next cluster of the chain, which is allocated at its end. -/
theorem nextOrAlloc_sat (hchain : FatChain fs d a cs) (hk : cs[k]? = some c) (pos : ℕ) :
    Exec.Sat (nextOrAlloc fs c d)
      (fun x d' => ∃ cs', Stored fs a d cs pos [] d' cs' ∧ cs'[k + 1]? = some x ∧
        (cs' = cs ∨ cs'.length = k + 2))
      (fun e d' => e.IsErr ∧ d' = d ∧ firstFree fs d = none ∧ cs.length = k + 1) := by
  have hin := hchain.mem_in c (List.mem_of_getElem? hk)
  rw [nextOrAlloc, Exec.bind_of_ok (nextCluster_run hfits hin.2)]
  cases hk' : cs[k + 1]? with
  | some x =>
    have hnext : next fs d c = x := hchain.next_eq hk hk'
    have hx : ¬ 0x0FFFFFF8 ≤ x := hfits.not_eoc (hchain.mem_in x (List.mem_of_getElem? hk'))
    rw [hnext, if_neg hx]
    exact Exec.sat_ok.2 ⟨cs, .refl hfits hchain pos, hk', .inl rfl⟩
  | none =>
    have hlen : cs.length = k + 1 :=
      Nat.le_antisymm (List.getElem?_eq_none_iff.1 hk') (List.getElem?_eq_some_iff.1 hk).1
    have hlast : cs.getLast? = some c := by
      rw [List.getLast?_eq_getElem?]
      rwa [show cs.length - 1 = k by omega]
    have hend : 0x0FFFFFF8 ≤ next fs d c := hchain.end_getLast? hlast
    rw [if_pos hend, allocCluster_run _ hfits fun q hq => .inr (Option.some.inj hq ▸ hin.2)]
    cases hfree : firstFree fs d with
    | none => exact Exec.sat_error.2 ⟨⟨_, rfl⟩, rfl, rfl, hlen⟩
    | some x =>
      obtain ⟨hgrows, hchain', hbytes⟩ := grows_allocated (p := 0) hfits hchain hlast hfree
      refine Exec.sat_ok.2 ⟨cs ++ [x], ⟨hgrows, hchain', hbytes pos⟩, ?_, .inr ?_⟩
      · rw [← hlen, List.getElem?_concat_length]
      · rw [List.length_append, List.length_singleton, hlen]

/-- The loop to the cluster of the offset. -/
theorem seekCluster_sat (n : ℕ) (hchain : FatChain fs d a cs) (hk : cs[k]? = some c) (pos : ℕ) :
    Exec.Sat (seekCluster fs n c d)
      (fun x d' => ∃ cs', Stored fs a d cs pos [] d' cs' ∧ cs'[k + n]? = some x ∧
        (cs' = cs ∨ cs'.length = k + n + 1))
      (fun e d' => e.IsErr ∧ ∃ cs', Stored fs a d cs pos [] d' cs' ∧ firstFree fs d' = none ∧
        cs'.length ≤ k + n) := by
  induction n generalizing c k d cs with
  | zero => exact Exec.sat_ok.2 ⟨cs, .refl hfits hchain pos, hk, .inl rfl⟩
  | succ n ih =>
    rw [seekCluster]
    refine Exec.Sat.bind ((nextOrAlloc_sat hfits hchain hk pos).mono ?_ ?_)
    · rintro x d' ⟨cs', hstored, hx, hlen⟩
      refine (ih (hstored.fits hfits) hstored.chain hx).mono ?_ ?_
      · rintro y d'' ⟨cs'', hstored', hy, hlen'⟩
        have hlt := (List.getElem?_eq_some_iff.1 hy).1
        refine ⟨cs'', hstored.of_growth hfits hstored', ?_, ?_⟩
        · rwa [show k + (n + 1) = k + 1 + n by omega]
        · rcases hlen' with rfl | hlen'
          · exact hlen.imp_right fun hlen => by omega
          · exact .inr (by omega)
      · rintro e d'' ⟨herr, cs'', hstored', hfull, hlen'⟩
        exact ⟨herr, cs'', hstored.of_growth hfits hstored', hfull, by omega⟩
    · rintro e d' ⟨herr, rfl, hfull, hlen⟩
      exact ⟨herr, cs, .refl hfits hchain pos, hfull, by omega⟩

/-- A part of the data goes into a cluster of the chain. -/
theorem modifyCluster_stored (hchain : FatChain fs d a cs) (hk : cs[k]? = some c) {off : ℕ}
    {src : List UInt8} (hoff : off + src.length ≤ fs.clusterSizeBytes) :
    ∃ d', modifyCluster fs c (fun buf => splice buf off src) d = .ok ⟨⟩ d' ∧
      Stored fs a d cs (k * fs.clusterSizeBytes + off) src d' cs := by
  have hmem := List.mem_of_getElem? hk
  have hin := hchain.mem_in c hmem
  have hnodup := hchain.nodup hfits
  have hlen : (splice (cluster fs d c) off src).length = fs.clusterSizeBytes := by
    rw [length_splice (by rwa [length_cluster]), length_cluster]
  refine ⟨_, modifyCluster_run hfits hin hlen,
    grows_setCluster hfits hnodup hin.1 (.inl hmem) hlen, hchain.setCluster hfits, ?_⟩
  exact overlaid_setCluster (fun x hx => (hchain.mem_in x hx).1) hnodup hk hoff

/-- The loop over the data stores what is left of it, growing the chain no more than needed. -/
theorem writeData_sat {data : List UInt8} {off written : ℕ} (hoff : off < fs.clusterSizeBytes)
    (hchain : FatChain fs d a cs) (hk : cs[k]? = some c) (hw : written ≤ data.length) :
    Exec.Sat (writeData fs data c off written hoff d)
      (fun n d' => n = data.length ∧ ∃ cs',
        Stored fs a d cs (k * fs.clusterSizeBytes + off) (data.drop written) d' cs' ∧
        (written < data.length → k * fs.clusterSizeBytes + off + (data.length - written) ≤
          cs'.length * fs.clusterSizeBytes) ∧
        (cs' = cs ∨ cs'.length * fs.clusterSizeBytes <
          k * fs.clusterSizeBytes + off + (data.length - written) + fs.clusterSizeBytes))
      (fun e d' => e.IsErr ∧ ∃ cs' m,
        Stored fs a d cs (k * fs.clusterSizeBytes + off) ((data.drop written).take m) d' cs' ∧
        firstFree fs d' = none ∧ cs'.length * fs.clusterSizeBytes <
          k * fs.clusterSizeBytes + off + (data.length - written)) := by
  induction hn : data.length - written using Nat.strong_induction_on
    generalizing d cs c k off written with
  | _ n ih =>
    rw [writeData]
    by_cases hlt : written < data.length
    · have hpos := fs.clusterSizeBytes_pos
      have hcs := (List.getElem?_eq_some_iff.1 hk).1
      have hmul : (k + 1) * fs.clusterSizeBytes ≤ cs.length * fs.clusterSizeBytes :=
        Nat.mul_le_mul_right _ hcs
      rw [Nat.succ_mul] at hmul
      rw [if_pos hlt]
      generalize htake : min (data.length - written) (fs.clusterSizeBytes - off) = take
      have hslice : (slice data written take).length = take := length_slice (by omega)
      obtain ⟨d₁, hrun, hstored⟩ := modifyCluster_stored hfits hchain hk
        (show off + (slice data written take).length ≤ _ by omega)
      rw [Exec.bind_of_ok hrun]
      by_cases hmore : written + take < data.length
      · have hfull : off + take = fs.clusterSizeBytes := by omega
        have hnextpos : k * fs.clusterSizeBytes + off + (slice data written take).length =
            (k + 1) * fs.clusterSizeBytes + 0 := by
          rw [hslice, Nat.succ_mul]
          omega
        rw [if_pos hmore]
        refine Exec.Sat.bind ((nextOrAlloc_sat (hstored.fits hfits) hstored.chain hk
          (k * fs.clusterSizeBytes + off + (slice data written take).length)).mono ?_ ?_)
        · rintro x d₂ ⟨cs₂, hstored₂, hx, hlen₂⟩
          have hgrown := hstored.then_growth hfits (hstored₂.growth_pos _)
          refine (ih _ (by omega) (hgrown.fits hfits) hpos hgrown.chain hx (by omega) rfl).mono
            ?_ ?_
          · rintro m d₃ ⟨rfl, cs₃, hstored₃, hcover, hlen₃⟩
            rw [Nat.succ_mul] at hcover hlen₃
            refine ⟨rfl, cs₃, hgrown.drop_append hfits hnextpos hstored₃, fun _ => ?_, ?_⟩
            · have := hcover hmore
              omega
            · rcases hlen₃ with rfl | hlen₃
              · refine hlen₂.imp_right fun hlen => ?_
                rw [hlen, Nat.succ_mul, Nat.succ_mul]
                omega
              · exact .inr (by omega)
          · rintro e d₃ ⟨herr, cs₃, m, hstored₃, hfull, hlen₃⟩
            rw [Nat.succ_mul] at hlen₃
            exact ⟨herr, cs₃, take + m, hgrown.take_append hfits hnextpos hstored₃, hfull, by omega⟩
        · rintro e d₂ ⟨herr, rfl, hfull, hlen⟩
          refine ⟨herr, cs, take, hstored, hfull, ?_⟩
          rw [hlen, Nat.succ_mul]
          omega
      · have hall : (data.drop written).take take = data.drop written :=
          List.take_of_length_le (by rw [List.length_drop]; omega)
        rw [if_neg hmore]
        refine Exec.sat_ok.2 ⟨by omega, cs, ?_, fun _ => by omega, .inl rfl⟩
        rw [← hall]
        exact hstored
    · rw [if_neg hlt]
      refine Exec.sat_ok.2 ⟨by omega, cs, ?_, fun h => absurd h hlt, .inl rfl⟩
      rw [List.drop_eq_nil_of_le (by omega)]
      exact .refl hfits hchain _

end

/-! ## The call -/

/-- The record at `o` with another first cluster. -/
def putFirst (o c : ℕ) (buf : List UInt8) : List UInt8 :=
  splice (splice buf (o + 0x14) (toLe 2 (c >>> 16))) (o + 0x1A) (toLe 2 c)

/-- The record at `o` with another size. -/
def putSize (o n : ℕ) (buf : List UInt8) : List UInt8 := splice buf (o + 0x1C) (toLe 4 n)

/-- What the call makes of the cluster with the record, from the node before and after it. -/
def patchRecord (node node' : Fat32Node) (buf : List UInt8) : List UInt8 :=
  let buf := if node'.firstCluster = node.firstCluster then buf
    else putFirst node.dirEntryOffset node'.firstCluster buf
  if node'.size = node.size then buf else putSize node.dirEntryOffset node'.size buf

/-- A file node on a volume: its clusters, and its record in a cluster that is neither free nor
among them. -/
structure FileNode (fs : Fat32Fs) (d : Disk) (node : Fat32Node) (cs : List ℕ) : Prop where
  file : node.isDir = false
  chain : DirChain fs d node.firstCluster cs
  parent : fs.InRange node.parentCluster
  used : next fs d node.parentCluster ≠ 0
  apart : node.parentCluster ∉ cs
  offset : node.dirEntryOffset + 32 ≤ fs.clusterSizeBytes

/-- The part of `write` that stores the data. -/
def storeData (fs : Fat32Fs) (offset : ℕ) (data : List UInt8) : Exec Unit Handle ℕ := do
  ensureFirstCluster fs
  let first := (← get).node.firstCluster
  let cluster ← onDisk (seekCluster fs (offset / fs.clusterSizeBytes) first)
  onDisk (writeData fs data cluster (offset % fs.clusterSizeBytes) 0
    (fs.mod_clusterSizeBytes_lt offset))

/-- What a call of `write`, or a part of it, did. -/
structure Wrote (fs : Fat32Fs) (h : Handle) (cs : List ℕ) (pos : ℕ) (data : List UInt8)
    (h' : Handle) (cs' : List ℕ) : Prop where
  grows : Grows fs h.node.parentCluster h.disk cs h'.disk cs'
  node : FileNode fs h'.disk h'.node cs'
  place : h'.node.parentCluster = h.node.parentCluster ∧
    h'.node.dirEntryOffset = h.node.dirEntryOffset
  first : 2 ≤ h.node.firstCluster → h'.node.firstCluster = h.node.firstCluster
  bytes : Overlaid (clusters fs h.disk cs) pos data (clusters fs h'.disk cs')
  record : cluster fs h'.disk h.node.parentCluster =
    patchRecord h.node h'.node (cluster fs h.disk h.node.parentCluster)

section
variable {fs : Fat32Fs} {h h' : Handle} {d' : Disk} {cs cs' : List ℕ} {pos : ℕ} {data : List UInt8}
  (hfits : fs.Fits h.disk.capacity)

/-- A first cluster put into a record leaves the cluster's length. -/
theorem length_putFirst {buf : List UInt8} {o c : ℕ} (ho : o + 32 ≤ buf.length) :
    (putFirst o c buf).length = buf.length := by
  have h1 : (splice buf (o + 0x14) (toLe 2 (c >>> 16))).length = buf.length :=
    length_splice (by rw [length_toLe]; omega)
  rw [putFirst, length_splice (by rw [length_toLe, h1]; omega), h1]

/-- A size put into a record leaves the cluster's length. -/
theorem length_putSize {buf : List UInt8} {o n : ℕ} (ho : o + 32 ≤ buf.length) :
    (putSize o n buf).length = buf.length := length_splice (by rw [length_toLe]; omega)

/-- The chain of an entry meets no cluster twice. -/
theorem DirChain.nodup {d : Disk} {c : ℕ} (hfits : fs.Fits d.capacity) (h : DirChain fs d c cs) :
    cs.Nodup := by
  rcases h with ⟨-, rfl⟩ | h
  · exact List.nodup_nil
  · exact h.nodup hfits

/-- Growth without a change of a record is growth. -/
theorem Grows.mono {d d' : Disk} {p : ℕ} (h : Grows fs 0 d cs d' cs') : Grows fs p d cs d' cs' where
  capacity := h.capacity
  new := h.new
  nodup := h.nodup
  fat := h.fat
  top := h.top
  copies := h.copies
  cluster := fun x hx hmem _ => h.cluster x hx hmem (by omega)

/-- The chain of an entry holds data clusters. -/
theorem DirChain.two_le {d : Disk} {c : ℕ} (h : DirChain fs d c cs) : ∀ x ∈ cs, 2 ≤ x := by
  rcases h with ⟨-, rfl⟩ | h
  · exact nofun
  · exact fun x hx => (h.mem_in x hx).1

/-- The cluster with the record of a file is not among the clusters of the file. -/
theorem clusters_setCluster {d : Disk} {p : ℕ} {bs : List UInt8}
    (hbs : bs.length = fs.clusterSizeBytes) (hp : 2 ≤ p) (hcs : ∀ x ∈ cs, 2 ≤ x) (hout : p ∉ cs) :
    clusters fs (setCluster fs d p bs) cs = clusters fs d cs := by
  refine clusters_congr fun x hx => ?_
  rw [cluster_setCluster hbs hp (hcs x hx), if_neg]
  rintro rfl
  exact hout hx

/-- A write of the directory's cluster leaves the file's chain. -/
theorem FileNode.setRecord {d : Disk} {node : Fat32Node} (hfits : fs.Fits d.capacity)
    (hn : FileNode fs d node cs) (bs : List UInt8) :
    FileNode fs (setCluster fs d node.parentCluster bs) node cs where
  file := hn.file
  chain := hn.chain.imp_right fun hchain => hchain.setCluster hfits
  parent := hn.parent
  used := by
    rw [next_setCluster hfits.copies hn.parent.2]
    exact hn.used
  apart := hn.apart
  offset := hn.offset

/-- A drive with all sectors of the volume still has them. -/
theorem Wrote.fits (hw : Wrote fs h cs pos data h' cs') (hfits : fs.Fits h.disk.capacity) :
    fs.Fits h'.disk.capacity := by
  rwa [hw.grows.capacity]

include hfits

/-- A call that has written nothing yet. -/
theorem Wrote.refl (hn : FileNode fs h.disk h.node cs) (pos : ℕ) : Wrote fs h cs pos [] h cs where
  grows := .refl (hn.chain.nodup hfits)
  node := hn
  place := ⟨rfl, rfl⟩
  first := fun _ => rfl
  bytes := .refl _ _
  record := by rw [patchRecord, if_pos rfl, if_pos rfl]

/-- Data into the chain of the file. -/
theorem Wrote.stored (hw : Wrote fs h cs pos [] h' cs')
    {d₂ : Disk} {cs₂ : List ℕ} (hs : Stored fs h'.node.firstCluster h'.disk cs' pos data d₂ cs₂) :
    Wrote fs h cs pos data { h' with disk := d₂ } cs₂ := by
  have hout := hs.grows.notMem hw.node.apart hw.node.used
  have hp := hw.node.parent
  refine ⟨hw.grows.trans hfits.copies hs.grows.mono, ⟨hw.node.file, .inr hs.chain, hp, ?_, hout,
    hw.node.offset⟩, hw.place, hw.first, hw.bytes.of_zeros hs.bytes, ?_⟩
  · show next fs d₂ h'.node.parentCluster ≠ 0
    rw [hs.grows.next_eq hfits.copies hp.2 hout]
    exact hw.node.used
  · show cluster fs d₂ h.node.parentCluster = _
    rw [← hw.record, ← hw.place.1, hs.grows.cluster _ hp.1 hout]
    have := hp.1
    omega

/-- A first cluster for an empty file: it is allocated, and its number is put into the record. -/
theorem wrote_first {c : ℕ} (hn : FileNode fs h.disk h.node []) (hfirst : h.node.firstCluster < 2)
    (hfree : firstFree fs h.disk = some c) (pos : ℕ) :
    ∃ d', modifyCluster fs h.node.parentCluster (putFirst h.node.dirEntryOffset c)
        (allocated fs h.disk none c) = .ok ⟨⟩ d' ∧
      Wrote fs h [] pos [] ⟨{ h.node with firstCluster := c }, d'⟩ [c] ∧ FatChain fs d' c [c] := by
  have hp := hn.parent
  obtain ⟨hin, h0⟩ := firstFree_some hfree
  obtain ⟨hgrows, hchain, hbytes⟩ := grows_first (p := h.node.parentCluster) hfits hfree
  have hprev : ∀ q ∈ (none : Option ℕ), q < fs.entries := nofun
  have hout : h.node.parentCluster ∉ [c] := hgrows.notMem hn.apart hn.used
  have hfits₁ : fs.Fits (allocated fs h.disk none c).capacity := by rwa [hgrows.capacity]
  have hbuf : (putFirst h.node.dirEntryOffset c
      (cluster fs (allocated fs h.disk none c) h.node.parentCluster)).length =
      fs.clusterSizeBytes := by
    rw [length_putFirst (by rw [length_cluster]; exact hn.offset), length_cluster]
  have hset := grows_setCluster (p := h.node.parentCluster) hfits₁ hgrows.nodup hp.1
    (.inr rfl) hbuf
  have hold : cluster fs (allocated fs h.disk none c) h.node.parentCluster =
      cluster fs h.disk h.node.parentCluster := by
    rw [cluster_allocated hin hprev hp.1, if_neg]
    exact fun heq => hout (List.mem_singleton.2 heq)
  have hused : next fs (allocated fs h.disk none c) h.node.parentCluster ≠ 0 := by
    rw [hgrows.next_eq hfits.copies hp.2 hout]
    exact hn.used
  have hnode : FileNode fs (allocated fs h.disk none c) { h.node with firstCluster := c } [c] :=
    ⟨hn.file, .inr hchain, hp, hused, hout, hn.offset⟩
  have hne : ¬ c = h.node.firstCluster := by
    have := hin.1
    omega
  refine ⟨_, modifyCluster_run hfits₁ hp hbuf, ⟨hgrows.trans hfits.copies hset,
    hnode.setRecord hfits₁ _, ⟨rfl, rfl⟩, fun h2 => absurd h2 (by omega), ?_, ?_⟩,
    hchain.setCluster hfits₁⟩
  · show Overlaid _ _ _ (clusters fs (setCluster fs _ _ _) [c])
    rw [clusters_setCluster hbuf hp.1 hnode.chain.two_le hout]
    exact hbytes pos
  · show cluster fs (setCluster fs _ h.node.parentCluster _) h.node.parentCluster = _
    rw [cluster_setCluster hbuf hp.1 hp.1, if_pos rfl, hold, patchRecord]
    simp only
    rw [if_neg hne, if_pos trivial]

/-- Making sure that there is a first cluster. -/
theorem ensureFirstCluster_sat (hn : FileNode fs h.disk h.node cs) (pos : ℕ) :
    Exec.Sat (ensureFirstCluster fs h)
      (fun _ h' => ∃ cs', Wrote fs h cs pos [] h' cs' ∧ h'.node.size = h.node.size ∧
        FatChain fs h'.disk h'.node.firstCluster cs' ∧ (cs' = cs ∨ cs'.length = 1))
      (fun e h' => e.IsErr ∧ h' = h ∧ firstFree fs h.disk = none ∧ cs = []) := by
  rw [ensureFirstCluster, Exec.bind_of_ok (Exec.get_apply h)]
  by_cases hfirst : h.node.firstCluster < 2
  · obtain rfl : cs = [] := by
      rcases hn.chain with ⟨-, hnil⟩ | hchain
      · exact hnil
      · exact absurd (hchain.mem_in _ hchain.head_mem).1 (by omega)
    have hp0 : h.node.parentCluster ≠ 0 := by
      have := hn.parent.1
      omega
    have halloc := allocCluster_run none hfits nofun
    rw [if_pos hfirst]
    cases hfree : firstFree fs h.disk with
    | none =>
      rw [hfree] at halloc
      have herr : onDisk (allocCluster fs none) h = .error (.err ()) h :=
        Exec.mapErr_of_error (Exec.zoom_of_error halloc)
      rw [Exec.bind_of_error herr]
      exact Exec.sat_error.2 ⟨⟨_, rfl⟩, rfl, rfl, rfl⟩
    | some c =>
      rw [hfree] at halloc
      obtain ⟨d', hmod, hwrote, hchain⟩ := wrote_first hfits hn hfirst hfree pos
      have hok : onDisk (allocCluster fs none) h =
          .ok c { h with disk := allocated fs h.disk none c } :=
        Exec.mapErr_of_ok (Exec.zoom_of_ok halloc)
      have hmod' : onDisk (modifyCluster fs h.node.parentCluster
          (putFirst h.node.dirEntryOffset c))
          ⟨{ h.node with firstCluster := c }, allocated fs h.disk none c⟩ =
          .ok ⟨⟩ ⟨{ h.node with firstCluster := c }, d'⟩ :=
        Exec.mapErr_of_ok (Exec.zoom_of_ok hmod)
      rw [Exec.bind_of_ok hok, Exec.bind_of_ok (Exec.modify_apply _ _), if_pos hp0]
      show Exec.Sat (onDisk
        (modifyCluster fs h.node.parentCluster (putFirst h.node.dirEntryOffset c))
        ⟨{ h.node with firstCluster := c }, allocated fs h.disk none c⟩) _ _
      rw [hmod']
      exact Exec.sat_ok.2 ⟨[c], hwrote, rfl, hchain, .inr rfl⟩
  · rw [if_neg hfirst]
    have hchain : FatChain fs h.disk h.node.firstCluster cs :=
      hn.chain.resolve_left fun hc => hfirst hc.1
    exact Exec.sat_ok.2 ⟨cs, .refl hfits hn pos, rfl, hchain, .inl rfl⟩

omit hfits in
/-- A run of the driver on the drive of a handle leaves the node alone. -/
theorem onDisk_sat {α : Type} {x : Exec String Disk α} {Q : α → Disk → Prop}
    {E : Fault String → Disk → Prop} (hx : Exec.Sat (x h.disk) Q E) :
    Exec.Sat (onDisk x h) (fun a h' => ∃ d', h' = { h with disk := d' } ∧ Q a d')
      (fun e h' => ∃ e' d', e = e'.map (fun _ => ()) ∧ h' = { h with disk := d' } ∧ E e' d') := by
  cases hr : x h.disk with
  | ok a d' =>
    rw [hr] at hx
    have hok : onDisk x h = .ok a { h with disk := d' } := Exec.mapErr_of_ok (Exec.zoom_of_ok hr)
    rw [hok]
    exact Exec.sat_ok.2 ⟨d', rfl, Exec.sat_ok.1 hx⟩
  | error e d' =>
    rw [hr] at hx
    have herr : onDisk x h = .error (e.map fun _ => ()) { h with disk := d' } :=
      Exec.mapErr_of_error (Exec.zoom_of_error hr)
    rw [herr]
    exact Exec.sat_error.2 ⟨e, d', rfl, rfl, Exec.sat_error.1 hx⟩

/-- The last part of `write`: the new size goes into the record. -/
theorem Wrote.updateSize_run (hw : Wrote fs h cs pos data h' cs') (n : ℕ) :
    onDisk (updateSizeOnDisk fs h.node n) { h' with node := { h'.node with size := n } } =
      .ok ⟨⟩ ⟨{ h'.node with size := n }, setCluster fs h'.disk h.node.parentCluster
        (putSize h.node.dirEntryOffset n (cluster fs h'.disk h.node.parentCluster))⟩ := by
  have hp := hw.node.parent
  have ho := hw.node.offset
  rw [hw.place.1] at hp
  rw [hw.place.2] at ho
  have hlen : (putSize h.node.dirEntryOffset n
      (cluster fs h'.disk h.node.parentCluster)).length = fs.clusterSizeBytes := by
    rw [length_putSize (by rwa [length_cluster]), length_cluster]
  have hp0 : ¬ h.node.parentCluster = 0 := by
    have := hp.1
    omega
  rw [updateSizeOnDisk, if_neg hp0]
  exact Exec.mapErr_of_ok (Exec.zoom_of_ok (modifyCluster_run (hw.fits hfits) hp hlen))

/-- The record with the new size. -/
theorem Wrote.resize (hw : Wrote fs h cs pos data h' cs') (hsize : h'.node.size = h.node.size)
    {n : ℕ} (hn : n ≠ h.node.size) :
    Wrote fs h cs pos data ⟨{ h'.node with size := n }, setCluster fs h'.disk h.node.parentCluster
      (putSize h.node.dirEntryOffset n (cluster fs h'.disk h.node.parentCluster))⟩ cs' := by
  have hp := hw.node.parent
  have ho := hw.node.offset
  rw [hw.place.1] at hp
  rw [hw.place.2] at ho
  have hfits' := hw.fits hfits
  have hlen : (putSize h.node.dirEntryOffset n
      (cluster fs h'.disk h.node.parentCluster)).length = fs.clusterSizeBytes := by
    rw [length_putSize (by rwa [length_cluster]), length_cluster]
  have hout := hw.node.apart
  rw [hw.place.1] at hout
  have hnode := hw.node.setRecord hfits' (putSize h.node.dirEntryOffset n
    (cluster fs h'.disk h.node.parentCluster))
  rw [hw.place.1] at hnode
  refine ⟨?_, ?_, hw.place, hw.first, ?_, ?_⟩
  · exact hw.grows.trans hfits.copies
      (grows_setCluster hfits' hw.grows.nodup hp.1 (.inr rfl) hlen)
  · exact ⟨hnode.file, hnode.chain, hnode.parent, hnode.used, hnode.apart, hnode.offset⟩
  · show Overlaid _ _ _ (clusters fs (setCluster fs _ _ _) cs')
    rw [clusters_setCluster hlen hp.1 (hw.node.chain.two_le) hout]
    exact hw.bytes
  · show cluster fs (setCluster fs _ _ _) _ = _
    rw [cluster_setCluster hlen hp.1 hp.1, if_pos rfl, hw.record, patchRecord, patchRecord,
      if_pos hsize, if_neg hn]

omit hfits in
/-- `write` on a file, as its two parts. -/
theorem write_eq {offset : ℕ} (hfile : h.node.isDir = false) (hdata : data ≠ [])
    (h64 : offset + data.length < 2 ^ 64) :
    write fs offset data h = (storeData fs offset data >>= fun written => do
      if h.node.size < max (offset + data.length) h.node.size then
        modify fun h' => { h' with node :=
          { h'.node with size := max (offset + data.length) h.node.size % 2 ^ 32 } }
        onDisk (updateSizeOnDisk fs h.node (max (offset + data.length) h.node.size % 2 ^ 32))
      pure written) h := by
  rw [write, Exec.bind_of_ok (Exec.get_apply h)]
  simp only
  rw [if_neg (by simp [hfile, hdata]), if_neg (by omega), storeData]
  simp only [bind_assoc]

/-- The data goes over the bytes of the file; the chain gets no more clusters than it needs. A call
that fails does so on a full disk, and it has written a part of the data. -/
theorem storeData_sat (hn : FileNode fs h.disk h.node cs) {offset : ℕ} (hdata : data ≠ []) :
    Exec.Sat (storeData fs offset data h)
      (fun n h' => n = data.length ∧ ∃ cs', Wrote fs h cs offset data h' cs' ∧
        h'.node.size = h.node.size ∧
        offset + data.length ≤ cs'.length * fs.clusterSizeBytes ∧
        (cs' = cs ∨
          cs'.length * fs.clusterSizeBytes < offset + data.length + fs.clusterSizeBytes))
      (fun e h' => e.IsErr ∧ ∃ cs' m, Wrote fs h cs offset (data.take m) h' cs' ∧
        h'.node.size = h.node.size ∧ firstFree fs h'.disk = none ∧
        cs'.length * fs.clusterSizeBytes < offset + data.length) := by
  have hpos := fs.clusterSizeBytes_pos
  have hlen := List.length_pos_iff.2 hdata
  have hoff : offset / fs.clusterSizeBytes * fs.clusterSizeBytes + offset % fs.clusterSizeBytes =
      offset := Nat.div_add_mod' _ _
  have hmod := Nat.mod_lt offset hpos
  refine Exec.Sat.bind ((ensureFirstCluster_sat hfits hn offset).mono ?_ ?_)
  · rintro - h₁ ⟨cs₁, hw₁, hsize₁, hchain₁, hlen₁⟩
    rw [Exec.bind_of_ok (Exec.get_apply h₁)]
    have hfits₁ := hw₁.fits hfits
    have hone : cs₁ = cs ∨
        cs₁.length * fs.clusterSizeBytes < offset + data.length + fs.clusterSizeBytes := by
      refine hlen₁.imp_right fun hlen₁ => ?_
      rw [hlen₁]
      omega
    refine Exec.Sat.bind ((onDisk_sat (seekCluster_sat hfits₁ (offset / fs.clusterSizeBytes) hchain₁
      (k := 0) (List.head?_eq_getElem?.symm.trans hchain₁.head?_eq) offset)).mono ?_ ?_)
    · rintro c h₂ ⟨d₂, rfl, cs₂, hs₂, hc, hlen₂⟩
      have hw₂ := hw₁.stored hfits hs₂
      have hfits₂ : fs.Fits d₂.capacity := hw₂.fits hfits
      rw [Nat.zero_add] at hc hlen₂
      have htwo : cs₂ = cs ∨
          cs₂.length * fs.clusterSizeBytes < offset + data.length + fs.clusterSizeBytes := by
        rcases hlen₂ with rfl | hlen₂
        · exact hone
        · rw [hlen₂, Nat.succ_mul]
          omega
      refine (onDisk_sat (h := { h₁ with disk := d₂ }) (writeData_sat hfits₂
        hmod hs₂.chain hc (Nat.zero_le _))).mono ?_ ?_
      · rintro n h₃ ⟨d₃, rfl, rfl, cs₃, hs₃, hcover, hlen₃⟩
        rw [hoff, List.drop_zero] at hs₃
        rw [hoff, Nat.sub_zero] at hcover hlen₃
        refine ⟨rfl, cs₃, hw₂.stored hfits hs₃, hsize₁, hcover hlen, ?_⟩
        rcases hlen₃ with rfl | hlen₃
        · exact htwo
        · exact .inr hlen₃
      · rintro e h₃ ⟨e', d₃, rfl, rfl, herr, cs₃, m, hs₃, hfull, hlen₃⟩
        rw [hoff, List.drop_zero] at hs₃
        rw [hoff, Nat.sub_zero] at hlen₃
        exact ⟨herr.map _, cs₃, m, hw₂.stored hfits hs₃, hsize₁, hfull, hlen₃⟩
    · rintro e h₂ ⟨e', d₂, rfl, rfl, herr, cs₂, hs₂, hfull, hlen₂⟩
      refine ⟨herr.map _, cs₂, 0, hw₁.stored hfits hs₂, hsize₁, hfull, ?_⟩
      rw [Nat.zero_add] at hlen₂
      have := Nat.mul_le_mul_right fs.clusterSizeBytes hlen₂
      omega
  · rintro e h₁ ⟨herr, rfl, hfull, rfl⟩
    refine ⟨herr, [], 0, .refl hfits hn offset, rfl, hfull, ?_⟩
    rw [List.length_nil, Nat.zero_mul]
    omega

/-- `Fat32Node::write`: the data goes over the bytes of the file, and the size follows, cut to 32
bits; the chain gets no more clusters than it needs. A call that fails does so on a full disk; it
has written a part of the data, and the size stays. -/
theorem write_sat_cut (hn : FileNode fs h.disk h.node cs) {offset : ℕ} (hdata : data ≠ [])
    (h64 : offset + data.length < 2 ^ 64)
    (hcut : h.node.size < offset + data.length →
      (offset + data.length) % 2 ^ 32 ≠ h.node.size) :
    Exec.Sat (write fs offset data h)
      (fun n h' => n = data.length ∧ ∃ cs', Wrote fs h cs offset data h' cs' ∧
        h'.node.size = (if h.node.size < offset + data.length then
          (offset + data.length) % 2 ^ 32 else h.node.size) ∧
        offset + data.length ≤ cs'.length * fs.clusterSizeBytes ∧
        (cs' = cs ∨
          cs'.length * fs.clusterSizeBytes < offset + data.length + fs.clusterSizeBytes))
      (fun e h' => e.IsErr ∧ ∃ cs' m, Wrote fs h cs offset (data.take m) h' cs' ∧
        h'.node.size = h.node.size ∧ firstFree fs h'.disk = none ∧
        cs'.length * fs.clusterSizeBytes < offset + data.length) := by
  rw [write_eq hn.file hdata h64]
  refine Exec.Sat.bind ((storeData_sat hfits hn hdata).mono (fun n h₁ hok => ?_) fun _ _ => id)
  obtain ⟨rfl, cs', hw, hsize, hcover, hlen⟩ := hok
  by_cases hgrow : h.node.size < offset + data.length
  · have hmax : max (offset + data.length) h.node.size = offset + data.length := by omega
    rw [hmax, if_pos hgrow, Exec.bind_of_ok (Exec.modify_apply _ _),
      Exec.bind_of_ok (hw.updateSize_run hfits _)]
    exact Exec.sat_ok.2
      ⟨rfl, cs', hw.resize hfits hsize (hcut hgrow), (if_pos hgrow).symm, hcover, hlen⟩
  · rw [if_neg (by omega)]
    exact Exec.sat_ok.2 ⟨rfl, cs', hw, hsize.trans (if_neg hgrow).symm, hcover, hlen⟩

/-- Below 4 GB the size is not cut. -/
theorem write_sat (hn : FileNode fs h.disk h.node cs) {offset : ℕ} (hdata : data ≠ [])
    (hsize : offset + data.length < 2 ^ 32) :
    Exec.Sat (write fs offset data h)
      (fun n h' => n = data.length ∧ ∃ cs', Wrote fs h cs offset data h' cs' ∧
        h'.node.size = max (offset + data.length) h.node.size ∧
        offset + data.length ≤ cs'.length * fs.clusterSizeBytes ∧
        (cs' = cs ∨
          cs'.length * fs.clusterSizeBytes < offset + data.length + fs.clusterSizeBytes))
      (fun e h' => e.IsErr ∧ ∃ cs' m, Wrote fs h cs offset (data.take m) h' cs' ∧
        h'.node.size = h.node.size ∧ firstFree fs h'.disk = none ∧
        cs'.length * fs.clusterSizeBytes < offset + data.length) := by
  have hcut : (offset + data.length) % 2 ^ 32 = offset + data.length := Nat.mod_eq_of_lt hsize
  refine (write_sat_cut hfits hn hdata (by omega) fun hgrow => by omega).mono
    (fun n h' hok => ?_) fun _ _ => id
  obtain ⟨hn', cs', hw, hsize', hrest⟩ := hok
  refine ⟨hn', cs', hw, ?_, hrest⟩
  rw [hsize', hcut]
  split
  case isTrue hgrow => exact (Nat.max_eq_left hgrow.le).symm
  case isFalse hgrow => exact (Nat.max_eq_right (Nat.le_of_not_lt hgrow)).symm

/-- A write into the first cluster succeeds when there is a free cluster. -/
theorem write_ok_of_free (hn : FileNode fs h.disk h.node cs) {offset c : ℕ} (hdata : data ≠ [])
    (hsize : offset + data.length < 2 ^ 32) (hone : offset + data.length ≤ fs.clusterSizeBytes)
    (hin : fs.InRange c) (hfree : next fs h.disk c = 0) :
    ∃ h', write fs offset data h = .ok data.length h' := by
  have hsat := write_sat hfits hn hdata hsize
  cases hrun : write fs offset data h with
  | ok n h' =>
    rw [hrun] at hsat
    obtain ⟨rfl, -⟩ := Exec.sat_ok.1 hsat
    exact ⟨h', rfl⟩
  | error e h' =>
    rw [hrun] at hsat
    obtain ⟨-, cs', m, hw, -, hfull, hlen⟩ := Exec.sat_error.1 hsat
    obtain rfl : cs' = [] := by
      rw [← List.length_eq_zero_iff, ← Nat.lt_one_iff]
      refine Nat.lt_of_mul_lt_mul_right (a := fs.clusterSizeBytes) ?_
      omega
    have hused := firstFree_none hfull hin
    rw [hw.grows.next_eq hfits.copies hin.2 List.not_mem_nil] at hused
    exact absurd hfree hused

end

end Fat

end RossOs
