import RossOs.Fat.Handles
import RossOs.Fat.Tree

/-!
# The FAT of a volume in use

Over runs of `create` and `write`, also of such that stop on a full disk: the used clusters of the
FAT form chains, and the root and the entries in the directories own the heads of distinct ones
(`VolumeInv`). Every call makes one chain grow at most (`Grows`), so that the FAT part is one lemma
for both (`Grows.forest`); what remains is that the entries afterwards are those from before.
-/

namespace RossOs

open ByteMem Ahci

namespace Fat

/-- A cluster in use that is the successor of none. -/
def IsHead (fs : Fat32Fs) (d : Disk) (c : ℕ) : Prop := Chain.Head (next fs d) fs.InRange 0 c

/-- The volume is well-formed: its drive has all its sectors; the link of a used cluster is an end
mark or leads to a used cluster, no two clusters have the same successor and there is no cycle; the
root and the entries with a cluster start at distinct clusters that are in use and the successor of
none; and the copies of the FAT are equal. -/
structure VolumeInv (fs : Fat32Fs) (d : Disk) : Prop where
  fits : fs.Fits d.capacity
  forest : Chain.Forest (next fs d) fs.InRange Eoc 0
  root : IsHead fs d fs.bpb.rootCluster
  head : ∀ e, IsEntry used fs d e → 2 ≤ e.first →
    IsHead fs d e.first ∧ e.first ≠ fs.bpb.rootCluster
  distinct : ∀ e e', IsEntry used fs d e → IsEntry used fs d e' → 2 ≤ e.first →
    e.first = e'.first → e = e'
  copies : CopiesEqual fs d

/-- The reserved entries of the FAT and the top bits of all entries are as they were. -/
def Kept (fs : Fat32Fs) (d d' : Disk) : Prop := ∀ f < fs.bpb.numFats,
  (∀ x < fs.entries, fat fs d' f x / 2 ^ 28 = fat fs d f x / 2 ^ 28) ∧
  ∀ x < 2, fat fs d' f x = fat fs d f x

/-! ## The FAT -/

section
variable {fs : Fat32Fs} {d d' d'' : Disk} {p a c : ℕ} {cs cs' : List ℕ}

/-- A volume has finitely many clusters. -/
theorem finite_inRange (fs : Fat32Fs) : {x | fs.InRange x}.Finite :=
  (Set.finite_lt_nat fs.entries).subset fun _ hx => hx.2

/-- Cluster 0 is reserved. -/
theorem not_inRange_zero (fs : Fat32Fs) : ¬ fs.InRange 0 := fun h => absurd h.1 (by decide)

/-- A FAT that did not change keeps its entries. -/
theorem Kept.refl (fs : Fat32Fs) (d : Disk) : Kept fs d d := fun _ _ =>
  ⟨fun _ _ => rfl, fun _ _ => rfl⟩

/-- What two changes keep is kept by both. -/
theorem Kept.trans (h : Kept fs d d') (h' : Kept fs d' d'') : Kept fs d d'' := fun f hf =>
  ⟨fun x hx => ((h' f hf).1 x hx).trans ((h f hf).1 x hx),
    fun x hx => ((h' f hf).2 x hx).trans ((h f hf).2 x hx)⟩

/-- Growth by data clusters keeps the reserved entries and the top bits. -/
theorem Grows.kept (h : Grows fs p d cs d' cs') (hroot : fs.InRange c) (hcs' : ∀ x ∈ cs', 2 ≤ x) :
    Kept fs d d' := by
  refine fun f hf => ⟨fun x hx => h.top f hf x hx, fun x hx => ?_⟩
  have hlt : x < fs.entries := by
    have := hroot.1
    have := hroot.2
    omega
  refine h.fat f hf x hlt (.inl fun hmem => ?_)
  have := hcs' x hmem
  omega

/-- One chain grew, or a new one was started. -/
theorem Grows.forest (hfits : fs.Fits d.capacity) (h : Grows fs p d cs d' cs')
    (hforest : Chain.Forest (next fs d) fs.InRange Eoc 0)
    (hold : cs = [] ∨ FatChain fs d a cs ∧ IsHead fs d a) (hchain : DirChain fs d' a cs') :
    Chain.Forest (next fs d') fs.InRange Eoc 0 ∧ (2 ≤ a → IsHead fs d' a) ∧
      ∀ b, IsHead fs d b → IsHead fs d' b := by
  obtain ⟨new, rfl, hnew⟩ := h.new
  have hsame : ∀ x, fs.InRange x → x ∉ cs ++ new → next fs d' x = next fs d x :=
    fun x hx => h.next_eq hfits.copies hx.2
  rcases hchain with ⟨hlt, hnil⟩ | hchain
  · rw [hnil] at hsame
    have heq : ∀ x, fs.InRange x → next fs d' x = next fs d x :=
      fun x hx => hsame x hx List.not_mem_nil
    exact ⟨hforest.congr heq, fun h2 => absurd h2 (by omega), fun b hb => hb.congr heq⟩
  · obtain ⟨hforest', hhead, hheads⟩ := hforest.extend hfits.not_eoc (not_inRange_zero fs)
      (by decide) (finite_inRange fs) hold hnew hchain hsame
    exact ⟨hforest', fun _ => hhead, hheads⟩

end

/-! ## The directories -/

section
variable {fs : Fat32Fs} {d d' : Disk} {p o a c : ℕ} {cs cs' : List ℕ} {e : DirEntry}

/-- Every directory starts a chain. -/
theorem VolumeInv.head_of_isDir (h : VolumeInv fs d) (hdir : IsDir used fs d c) :
    IsHead fs d c := by
  rcases hdir.eq_or_entry with rfl | ⟨e, he, -, hfirst, rfl⟩
  · exact h.root
  · exact (h.head e he hfirst).1

/-- Every directory has a chain. -/
theorem VolumeInv.chain_of_isDir (h : VolumeInv fs d) (hdir : IsDir used fs d c) :
    ∃ cs, FatChain fs d c cs := by
  have hhead := h.head_of_isDir hdir
  exact h.forest.chain (finite_inRange fs) hhead.inside hhead.used

/-- The chain of an entry, which is empty when its first cluster is no cluster. -/
theorem VolumeInv.chain_of_entry (h : VolumeInv fs d) (he : IsEntry used fs d e) :
    ∃ cs, DirChain fs d e.first cs ∧
      (cs = [] ∨ FatChain fs d e.first cs ∧ IsHead fs d e.first) := by
  rcases Nat.lt_or_ge e.first 2 with hlt | hge
  · exact ⟨[], .inl ⟨hlt, rfl⟩, .inl rfl⟩
  · obtain ⟨hhead, -⟩ := h.head e he hge
    obtain ⟨cs, hcs⟩ := h.forest.chain (finite_inRange fs) hhead.inside hhead.used
    exact ⟨cs, .inr hcs, .inr ⟨hcs, hhead⟩⟩

/-- The clusters of a directory are none of a file. -/
theorem VolumeInv.apart_of_file (h : VolumeInv fs d) (hdir : IsDir used fs d c)
    (hc : FatChain fs d c cs') (he : IsEntry used fs d e) (hfile : e.isDirectory = false)
    (hcs : cs = [] ∨ FatChain fs d e.first cs ∧ IsHead fs d e.first) : ∀ x ∈ cs', x ∉ cs := by
  rcases hcs with rfl | ⟨hcs, hhead⟩
  · exact fun x _ => List.not_mem_nil
  · refine h.forest.disjoint hc hcs (h.head_of_isDir hdir) hhead ?_
    rcases hdir.eq_or_entry with rfl | ⟨e', he', hdir', hfirst, rfl⟩
    · exact (h.head e he hhead.inside.1).2.symm
    · intro heq
      rw [h.distinct e' e he' he hfirst heq, hfile] at hdir'
      cases hdir'

/-- The directories of two volumes, when the chains of the first one's directories became chains
whose entries were there before, but for entries `Q` that are no directories. -/
theorem isDir_of_slots (hfits : fs.Fits d'.capacity) {Q : DirEntry → Prop}
    (hQ : ∀ e, Q e → e.isDirectory = false)
    (hslots : ∀ c, IsDir used fs d c → ∃ l l', FatChain fs d c l ∧ FatChain fs d' c l' ∧
      ∀ e ∈ used (dirSlots fs d' l'), e ∈ used (dirSlots fs d l) ∨ Q e) :
    (∀ c, IsDir used fs d' c → IsDir used fs d c) ∧
      ∀ e, IsEntry used fs d' e → IsEntry used fs d e ∨ Q e := by
  have hdirs : ∀ c, IsDir used fs d' c → IsDir used fs d c := by
    intro c hc
    induction hc with
    | root => exact .root
    | @sub c cs e _ hchain he hdir hdot hfirst ih =>
      obtain ⟨l, l', hl, hl', hall⟩ := hslots c ih
      obtain rfl := hchain.unique hfits hl'
      rcases hall e he with he | he
      · exact .sub ih hl he hdir hdot hfirst
      · rw [hQ e he] at hdir
        cases hdir
  refine ⟨hdirs, ?_⟩
  rintro e ⟨c, cs, hc, hchain, he, hdot⟩
  obtain ⟨l, l', hl, hl', hall⟩ := hslots c (hdirs c hc)
  obtain rfl := hchain.unique hfits hl'
  exact (hall e he).imp_left fun he => ⟨c, l, hdirs c hc, hl, he, hdot⟩

/-- One step: a chain grew, and the entries are those from before, or the one at `(p, o)` whose
chain is new. -/
theorem VolumeInv.step (h : VolumeInv fs d) {q : ℕ} (hgrows : Grows fs q d cs d' cs')
    (hold : cs = [] ∨ FatChain fs d a cs ∧ IsHead fs d a) (hchain : DirChain fs d' a cs')
    (hentries : ∀ e', IsEntry used fs d' e' → 2 ≤ e'.first →
      (∃ e, IsEntry used fs d e ∧ e.first = e'.first ∧ e.cluster = e'.cluster ∧ e.off = e'.off) ∨
      cs = [] ∧ e'.first = a ∧ e'.cluster = p ∧ e'.off = o) : VolumeInv fs d' := by
  obtain ⟨hforest, hnewhead, hheads⟩ := hgrows.forest h.fits h.forest hold hchain
  -- a new chain starts at a cluster that was free
  have hfree : cs = [] → 2 ≤ a → next fs d a = 0 := by
    rintro rfl ha
    obtain ⟨new, hnew, hall⟩ := hgrows.new
    have hmem : a ∈ cs' := (hchain.resolve_left fun hlt => absurd ha (by omega)).head_mem
    rw [hnew] at hmem
    exact (hall a hmem).2
  refine ⟨hgrows.capacity ▸ h.fits, hforest, hheads _ h.root, fun e' he' hfirst => ?_,
    fun e₁ e₂ he₁ he₂ hfirst heq => ?_, hgrows.copies h.copies⟩
  · rcases hentries e' he' hfirst with ⟨e, he, hsame, -⟩ | ⟨hnil, rfl, -⟩
    · rw [← hsame] at hfirst ⊢
      exact ⟨hheads _ (h.head e he hfirst).1, (h.head e he hfirst).2⟩
    · refine ⟨hnewhead hfirst, fun hroot => ?_⟩
      have := hfree hnil hfirst
      rw [hroot] at this
      exact h.root.used this
  · have hfirst₂ : 2 ≤ e₂.first := hfirst.trans_eq heq
    have hplace : e₁.cluster = e₂.cluster ∧ e₁.off = e₂.off := by
      rcases hentries e₁ he₁ hfirst with ⟨x, hx, hx1, hxc, hxo⟩ | ⟨hnil, hx1, hxc, hxo⟩
      · have hx2 : 2 ≤ x.first := hfirst.trans_eq hx1.symm
        rcases hentries e₂ he₂ hfirst₂ with ⟨y, hy, hy1, hyc, hyo⟩ | ⟨hnil, hy1, -⟩
        · obtain rfl := h.distinct x y hx hy hx2 (hx1.trans (heq.trans hy1.symm))
          exact ⟨hxc.symm.trans hyc, hxo.symm.trans hyo⟩
        · have hused := (h.head x hx hx2).1.used
          rw [hx1, heq, hy1] at hused
          exact absurd (hfree hnil (hfirst₂.trans_eq hy1)) hused
      · rcases hentries e₂ he₂ hfirst₂ with ⟨y, hy, hy1, -⟩ | ⟨-, -, hyc, hyo⟩
        · have hused := (h.head y hy (hfirst₂.trans_eq hy1.symm)).1.used
          rw [hy1, ← heq, hx1] at hused
          exact absurd (hfree hnil (hfirst.trans_eq hx1)) hused
        · exact ⟨hxc.trans hyc.symm, hxo.trans hyo.symm⟩
    obtain ⟨_, _, -, -, hmem₁, -⟩ := he₁
    obtain ⟨_, _, -, -, hmem₂, -⟩ := he₂
    exact eq_of_mem_dirSlots (mem_used.1 hmem₁).1 (mem_used.1 hmem₂).1 hplace.1 hplace.2

end

/-! ## `write` -/

section
variable {fs : Fat32Fs} {d : Disk} {cs cs' : List ℕ} {e : DirEntry} {pos : ℕ} {data : List UInt8}
  {h' : Handle}

/-- The slots of the directories after a write: those from before, and the record of the file. -/
theorem VolumeInv.slots_wrote (h : VolumeInv fs d) (he : IsEntry used fs d e)
    (hfile : e.isDirectory = false) (hcs : cs = [] ∨ FatChain fs d e.first cs ∧ IsHead fs d e.first)
    (hw : Wrote fs ⟨nodeOf e, d⟩ cs pos data h' cs') (hlt : h'.node.size < 2 ^ 32) {c : ℕ}
    (hc : IsDir used fs d c) : ∃ l l', FatChain fs d c l ∧ FatChain fs h'.disk c l' ∧
      ∀ e' ∈ used (dirSlots fs h'.disk l'), e' ∈ used (dirSlots fs d l) ∨
        e'.cluster = e.cluster ∧ e'.off = e.off ∧ nodeOf e' = h'.node := by
  obtain ⟨c₀, l₀, -, -, he₀, -⟩ := id he
  have hmem := (mem_used.1 he₀).1
  obtain ⟨-, i, -, hoff, -⟩ := mem_dirSlots hmem
  have hp := parentCluster_nodeOf e
  have ho := dirEntryOffset_nodeOf e
  have hnode : entryNode fs d e.cluster e.off = nodeOf e := entryNode_of_mem hmem
  have hentry : entryNode fs h'.disk e.cluster e.off = h'.node :=
    hw.entryNode_eq h.fits hnode ((isDir_nodeOf e).trans hfile) hlt
  obtain ⟨l, hl⟩ := h.chain_of_isDir hc
  obtain ⟨hl', hout⟩ := hw.grows.fatChain h.fits.copies hl (h.apart_of_file hc hl he hfile hcs)
  refine ⟨l, l, hl, hl', fun e' he' => ?_⟩
  obtain ⟨he', hused⟩ := mem_used.1 he'
  obtain ⟨x, hx, j, hj, rfl⟩ := mem_dirSlots_iff.1 he'
  by_cases hsame : x = e.cluster ∧ j = i
  · obtain ⟨rfl, rfl⟩ := hsame
    rw [hoff] at hentry
    exact .inr ⟨rfl, hoff.symm, (entryNode_of_mem he').symm.trans hentry⟩
  · have hslot := hw.slotIn_eq (j := j) (ho.trans hoff) (hl.mem_in x hx).1 (hout x hx) (by
      rw [hp]
      exact not_and_or.1 hsame)
    rw [hslot] at hused ⊢
    exact .inl (mem_used.2 ⟨mem_dirSlots_iff.2 ⟨x, hx, j, hj, rfl⟩, hused⟩)

/-- The first cluster of a file that has one stays. -/
theorem firstCluster_wrote (hhead : IsHead fs d e.first)
    (hw : Wrote fs ⟨nodeOf e, d⟩ cs pos data h' cs') : h'.node.firstCluster = e.first := by
  have hfirst : (nodeOf e).firstCluster = e.first := firstCluster_nodeOf e
  rw [hw.first (hfirst ▸ hhead.inside.1), hfirst]

/-- What a write did, also one that failed on the way. -/
theorem VolumeInv.wrote (h : VolumeInv fs d) (he : IsEntry used fs d e)
    (hfile : e.isDirectory = false) (hcs : cs = [] ∨ FatChain fs d e.first cs ∧ IsHead fs d e.first)
    (hw : Wrote fs ⟨nodeOf e, d⟩ cs pos data h' cs') (hlt : h'.node.size < 2 ^ 32) :
    VolumeInv fs h'.disk ∧ Kept fs d h'.disk := by
  obtain ⟨-, hentries⟩ := isDir_of_slots (hw.fits h.fits) (fun e' he' => by
    rw [← isDir_nodeOf, he'.2.2]
    exact hw.node.file) fun c hc => h.slots_wrote he hfile hcs hw hlt hc
  have hold : cs = [] ∨
      FatChain fs d h'.node.firstCluster cs ∧ IsHead fs d h'.node.firstCluster := by
    refine hcs.imp_right fun hcs => ?_
    rwa [firstCluster_wrote hcs.2 hw]
  refine ⟨h.step (p := e.cluster) (o := e.off) hw.grows hold hw.node.chain fun e' he' hfirst => ?_,
    hw.grows.kept h.root.inside hw.node.chain.two_le⟩
  rcases hentries e' he' with he' | ⟨hc, ho', hn⟩
  · exact .inl ⟨e', he', rfl, rfl, rfl⟩
  · have hfirst' : e'.first = h'.node.firstCluster := by rw [← hn, firstCluster_nodeOf]
    rcases hcs with hnil | ⟨-, hhead⟩
    · exact .inr ⟨hnil, hfirst', hc, ho'⟩
    · refine .inl ⟨e, he, ?_, hc.symm, ho'.symm⟩
      rw [hfirst', firstCluster_wrote hhead hw]

/-- `write` on a file with an entry. -/
theorem VolumeInv.write (h : VolumeInv fs d) (he : IsEntry used fs d e)
    (hfile : e.isDirectory = false) (hsize : pos + data.length < 2 ^ 32) :
    VolumeInv fs (Exec.Outcome.state (Fat.write fs pos data ⟨nodeOf e, d⟩)).disk ∧
      Kept fs d (Exec.Outcome.state (Fat.write fs pos data ⟨nodeOf e, d⟩)).disk := by
  obtain ⟨c₀, l₀, hdir, hl₀, he₀, -⟩ := id he
  have hmem := (mem_used.1 he₀).1
  obtain ⟨cs, hchain, hcs⟩ := h.chain_of_entry he
  have hn : FileNode fs d (nodeOf e) cs :=
    fileNode_of_mem hl₀ hmem hfile hchain (h.apart_of_file hdir hl₀ he hfile hcs)
  have hlt : (nodeOf e).size < 2 ^ 32 := by
    have := (entryNode_lt fs d e.cluster e.off).2
    rwa [entryNode_of_mem hmem] at this
  by_cases hdata : data = []
  · have hfail : Fat.write fs pos data ⟨nodeOf e, d⟩ = .error (.err ()) ⟨nodeOf e, d⟩ := by
      rw [Fat.write, Exec.bind_of_ok (Exec.get_apply _)]
      simp [hdata]
    rw [hfail]
    exact ⟨h, .refl fs d⟩
  · refine Exec.Sat.state (P := fun h' => VolumeInv fs h'.disk ∧ Kept fs d h'.disk)
      ((write_sat (h := ⟨nodeOf e, d⟩) h.fits hn hdata hsize).mono ?_ ?_)
    · rintro n h' ⟨-, cs', hw, hsize', -⟩
      exact h.wrote he hfile hcs hw (by
        rw [hsize']
        exact Nat.max_lt.2 ⟨hsize, hlt⟩)
    · rintro err h' ⟨-, cs', m, hw, hsize', -⟩
      exact h.wrote he hfile hcs hw (by rwa [hsize'])

end

/-! ## `create` -/

section
variable {fs : Fat32Fs} {d d' d₁ : Disk} {node n : Fat32Node} {cs : List ℕ} {p off : ℕ}
  {name : String} {raw : List UInt8}

/-- A successful `create` keeps the invariant, and the entries that there were. -/
theorem VolumeInv.created (h : VolumeInv fs d) (hdir : IsDir used fs d node.firstCluster)
    (hcs : FatChain fs d node.firstCluster cs)
    (hcreated : Created fs d node cs name n d' raw p off d₁) :
    VolumeInv fs d' ∧ Kept fs d d' := by
  have hhead := h.head_of_isDir hdir
  obtain ⟨cs', hgrows, hchain, -, hall⟩ := hcreated.grows h.fits hcs
  have hslots : ∀ c, IsDir used fs d c → ∃ l l', FatChain fs d c l ∧ FatChain fs d' c l' ∧
      ∀ e ∈ used (dirSlots fs d' l'), e ∈ used (dirSlots fs d l) ∨ IsEmptyFile e := by
    intro c hc
    by_cases hsame : c = node.firstCluster
    · subst hsame
      exact ⟨cs, cs', hcs, hchain, hall⟩
    · obtain ⟨l, hl⟩ := h.chain_of_isDir hc
      obtain ⟨hl', hout⟩ := hgrows.fatChain h.fits.copies hl
        (h.forest.disjoint hl hcs (h.head_of_isDir hc) hhead hsame)
      refine ⟨l, l, hl, hl', fun e he => .inl ?_⟩
      rwa [dirSlots_congr d d' fun x hx => ?_] at he
      have hx2 := (hl.mem_in x hx).1
      exact hgrows.cluster x hx2 (hout x hx) (by omega)
  obtain ⟨-, hentries⟩ := isDir_of_slots (hgrows.capacity ▸ h.fits) (fun e he => he.1) hslots
  refine ⟨h.step (p := 0) (o := 0) hgrows (.inr ⟨hcs, hhead⟩) (.inr hchain)
    fun e he hfirst => .inl ?_, hgrows.kept h.root.inside fun x hx => (hchain.mem_in x hx).1⟩
  rcases hentries e he with he | ⟨-, hzero⟩
  · exact ⟨e, he, rfl, rfl, rfl⟩
  · rw [hzero] at hfirst
    exact absurd hfirst (by decide)

/-- `create` in a directory keeps the invariant, whether it succeeds or not. -/
theorem VolumeInv.create (h : VolumeInv fs d) (hdir : IsDir used fs d node.firstCluster) (fuel : ℕ)
    (name : String) : VolumeInv fs (Exec.Outcome.state (node.create fs fuel name d)) ∧
      Kept fs d (Exec.Outcome.state (node.create fs fuel name d)) := by
  obtain ⟨cs, hcs⟩ := h.chain_of_isDir hdir
  refine Exec.Sat.state (P := fun d' => VolumeInv fs d' ∧ Kept fs d d')
    ((create_sat h.fits (.inr hcs)).mono ?_ ?_)
  · rintro n d' ⟨raw, p, off, d₁, hcreated⟩
    exact h.created hdir hcs hcreated
  · rintro e d' rfl
    exact ⟨h, .refl fs _⟩

end

/-! ## Runs -/

/-- A call of `create` or `write` on a node. -/
inductive Call where
  | create (fuel : ℕ) (node : Fat32Node) (name : String)
  | write (node : Fat32Node) (offset : ℕ) (data : List UInt8)

/-- The drive after a call, however it ends. -/
def call (fs : Fat32Fs) (d : Disk) : Call → Disk
  | .create fuel node name => Exec.Outcome.state (node.create fs fuel name d)
  | .write node offset data => (Exec.Outcome.state (write fs offset data ⟨node, d⟩)).disk

/-- The call is on a node that lookups from the root on yield now, through directories whose first
clusters satisfy `P`; the end of a write fits into 32 bits. -/
def Fresh (fs : Fat32Fs) (P : Disk → ℕ → Prop) (d : Disk) : Call → Prop
  | .create _ node _ => Opened fs d (P d) node
  | .write node offset data => Opened fs d (P d) node ∧ offset + data.length < 2 ^ 32

section
variable {fs : Fat32Fs} {d : Disk} {a : Call} {l : List Call}

/-- One call keeps the invariant, whether it succeeds or not. -/
theorem VolumeInv.call (h : VolumeInv fs d) (ha : Fresh fs (IsDir used fs) d a) :
    VolumeInv fs (Fat.call fs d a) ∧ Kept fs d (Fat.call fs d a) := by
  cases a with
  | create fuel node name =>
    cases hdir : node.isDir with
    | true =>
      refine h.create ?_ fuel name
      rcases ha.dir hdir with rfl | hdir'
      · exact .root
      · exact hdir'
    | false =>
      rw [Fat.call, Fat32Node.create, hdir]
      exact ⟨h, .refl fs d⟩
  | write node offset data =>
    obtain ⟨hopened, hsize⟩ := ha
    cases hdir : node.isDir with
    | true =>
      have hfail : Fat.write fs offset data ⟨node, d⟩ = .error (.err ()) ⟨node, d⟩ := by
        rw [Fat.write, Exec.bind_of_ok (Exec.get_apply _)]
        simp [hdir]
      rw [Fat.call, hfail]
      exact ⟨h, .refl fs d⟩
    | false =>
      obtain ⟨e, he, hfile, rfl⟩ := hopened.file used hdir h.fits
        (fun l e he => mem_used.2 (mem_live he)) (fun c hc => h.chain_of_isDir hc)
        (fun c hc => .inr hc)
      exact h.write he hfile hsize

/-- Over every run of calls of `create` and `write`, whether they succeed or not, on nodes that are
opened from the root through directories below it, the volume stays well-formed, and the reserved
entries and the top bits of the FAT never change. -/
theorem volume_invariant (h : VolumeInv fs d)
    (hrun : Run.Guarded (call fs) (Fresh fs (IsDir used fs)) d l) :
    VolumeInv fs (l.foldl (call fs) d) ∧ Kept fs d (l.foldl (call fs) d) := by
  refine Run.invariant (I := fun d' => VolumeInv fs d' ∧ Kept fs d d') (fun d' a hd' ha => ?_)
    ⟨h, .refl fs d⟩ hrun
  obtain ⟨hinv, hkept⟩ := hd'.1.call ha
  exact ⟨hinv, hd'.2.trans hkept⟩

end

/-! ## Volumes of short chains -/

section
variable {fs : Fat32Fs} {d : Disk} {c : ℕ}
  (h : ∀ x, fs.InRange x → next fs d x = 0 ∨ Eoc (next fs d x)) (hfits : fs.Fits d.capacity)

include h hfits

/-- Where no cluster leads to another, every cluster in use starts a chain. -/
theorem isHead_of_eoc (hc : fs.InRange c) (hused : next fs d c ≠ 0) : IsHead fs d c := by
  refine ⟨hc, hused, fun x hx heq => ?_⟩
  rcases h x hx with h0 | heoc
  · rw [heq] at h0
    exact not_inRange_zero fs (h0 ▸ hc)
  · rw [heq] at heoc
    exact hfits.not_eoc hc heoc

/-- Where no cluster leads to another, there is no cycle. -/
theorem forest_of_eoc : Chain.Forest (next fs d) fs.InRange Eoc 0 := by
  have hnot : ∀ x, fs.InRange x → ¬ fs.InRange (next fs d x) := by
    intro x hx hin
    rcases h x hx with h0 | heoc
    · rw [h0] at hin
      exact not_inRange_zero fs hin
    · exact hfits.not_eoc hin heoc
  refine ⟨fun x hx hused => .inl ((h x hx).resolve_left hused), fun x y hx _ hin => ?_,
    fun x hcycle => ?_⟩
  · exact absurd hin (hnot x hx)
  · obtain ⟨y, ⟨hx, hy, rfl⟩, -⟩ := Relation.TransGen.head'_iff.1 hcycle
    exact hnot x hx hy

end

/-- The drive with an empty file is well-formed. -/
theorem volumeInv_emptyFileDisk : VolumeInv smallFs emptyFileDisk := by
  have hread := emptyFileDisk_readable
  have hshort : ∀ x, smallFs.InRange x →
      next smallFs emptyFileDisk x = 0 ∨ Eoc (next smallFs emptyFileDisk x) := by
    intro x hx
    rw [next_emptyFileDisk hx.2]
    split
    · exact .inr (by decide)
    · exact .inl rfl
  have hused : used (slotsOf smallFs (smallRows [record (oneLetter 0x41) 0x20 0 0]) 2) =
      [⟨record (oneLetter 0x41) 0x20 0 0, 2, 0⟩] := by decide +kernel
  have hentries : ∀ e, IsEntry used smallFs emptyFileDisk e → e.first = 0 := by
    intro e he
    rw [isEntry_rootDisk emptyFileDisk_rows hused (by decide) he]
    decide
  refine ⟨hread.fits, forest_of_eoc hshort hread.fits,
    isHead_of_eoc hshort hread.fits (by decide) ?_, fun e he hfirst => ?_,
    fun e e' he _ hfirst => ?_, fun f hf x _ => ?_⟩
  · exact (fatChain_rootDisk emptyFileDisk_rows).next_ne_zero (List.mem_singleton.2 rfl)
  · rw [hentries e he] at hfirst
    exact absurd hfirst (by decide)
  · rw [hentries e he] at hfirst
    exact absurd hfirst (by decide)
  · obtain rfl : f = 0 := Nat.lt_one_iff.1 hf
    rfl

/-- A write to an empty file, and a new file beside it. -/
theorem volume_invariant_two_calls :
    Run.Guarded (call smallFs) (Fresh smallFs (IsDir used smallFs)) emptyFileDisk
      [.write emptyNode 0 [7], .create 1 smallFs.root "b"] ∧
    VolumeInv smallFs ([.write emptyNode 0 [7], .create 1 smallFs.root "b"].foldl (call smallFs)
      emptyFileDisk) ∧
    Kept smallFs emptyFileDisk ([.write emptyNode 0 [7], .create 1 smallFs.root "b"].foldl
      (call smallFs) emptyFileDisk) := by
  have hguard : Run.Guarded (call smallFs) (Fresh smallFs (IsDir used smallFs)) emptyFileDisk
      [.write emptyNode 0 [7], .create 1 smallFs.root "b"] :=
    ⟨⟨.finddir .root finddir_emptyFileDisk nofun, by decide⟩, .root, trivial⟩
  exact ⟨hguard, volume_invariant volumeInv_emptyFileDisk hguard⟩

/-! ## A directory in a free cluster -/

/-- `create` in a directory that is one free cluster without a free slot: the cluster is allocated
again, and linked to itself. -/
theorem create_links_self {fs : Fat32Fs} {d : Disk} {node : Fat32Node} {name : String}
    {raw : List UInt8} (hfits : fs.Fits d.capacity) (hdir : node.isDir = true)
    (hraw : to83 name = some raw) (hfree : firstFree fs d = some node.firstCluster)
    (hlook : lookup (slotsOf fs (cluster fs d node.firstCluster) node.firstCluster) name = none)
    (hfull : (slotsOf fs (cluster fs d node.firstCluster) node.firstCluster).find? (·.isFree) =
      none) :
    next fs (Exec.Outcome.state (node.create fs 1 name d)) node.firstCluster =
      node.firstCluster := by
  obtain ⟨hc, hnext⟩ := firstFree_some hfree
  have hout : ¬ (2 ≤ next fs d node.firstCluster ∧ next fs d node.firstCluster < 0x0FFFFFF8) := by
    rw [hnext]
    decide
  have hread := readCluster_run hfits hc (List.length_replicate (n := fs.clusterSizeBytes) (a := 0))
  have hwalk : walkDir fs 1 node (fun e (s : Unit) =>
      (if nameMatches e.bytes name then some () else none, s)) () d = .ok (none, ()) d := by
    rw [walkDir, walkDirFrom, if_pos (hfits.enter hc), Exec.bind_of_ok hread, walkSlots_cluster,
      callback_find (fun e => nameMatches e.bytes name), ← lookup, hlook, Option.map_none]
    simp only [flowOf]
    split
    · rfl
    · show (nextCluster fs node.firstCluster >>= _) d = _
      rw [Exec.bind_of_ok (nextCluster_run hfits hc.2), walkDirFrom_of_out _ _ hout]
  have hslot : findFreeSlot fs 1 node d = .ok (node.firstCluster, 0)
      (allocated fs d (some node.firstCluster) node.firstCluster) := by
    rw [findFreeSlot, findFreeSlotFrom, if_pos (hfits.enter hc), Exec.bind_of_ok hread,
      freeSlotIn_eq _ node.firstCluster, hfull]
    show (nextCluster fs node.firstCluster >>= _) d = _
    rw [Exec.bind_of_ok (nextCluster_run hfits hc.2), findFreeSlotFrom_of_out hout]
    have halloc := allocCluster_run (some node.firstCluster) hfits fun p hp =>
      .inr (Option.some.inj hp ▸ hc.2)
    rw [hfree] at halloc
    rw [Exec.bind_of_ok halloc]
    rfl
  have hprev : ∀ p ∈ some node.firstCluster, p < fs.entries := fun p hp => Option.some.inj hp ▸ hc.2
  have hfits' : fs.Fits (allocated fs d (some node.firstCluster) node.firstCluster).capacity := by
    rwa [allocated_capacity hc hprev]
  have hcb : 0 + 32 ≤ fs.clusterSizeBytes := by
    have := fs.clusterSizeBytes_pos
    have := fs.slots_eq
    omega
  have hmod := modifyCluster_run (g := putRecord fs raw 0) hfits' hc
    (length_putRecord _ _ _ (length_to83 hraw) hcb (length_cluster ..))
  have hlt : node.firstCluster < 2 ^ 28 := by
    have := hfits.entries_le
    have := hc.2
    omega
  rw [Fat32Node.create, hdir, Bool.not_true, if_neg Bool.false_ne_true, hraw]
  simp only
  rw [Exec.bind_of_ok (Exec.mapErr_of_ok hwalk)]
  simp only [Option.isSome_none, Bool.false_eq_true, if_false]
  rw [Exec.bind_of_ok (Exec.mapErr_of_ok hslot), Exec.bind_of_ok (Exec.mapErr_of_ok hmod)]
  show next fs (setCluster fs _ _ _) _ = _
  rw [next_setCluster hfits.copies hc.2, next_allocated hfits.copies hc hlt hprev hc.2, if_pos rfl]

/-- The root directory holds `s` and an empty file; the stray `..` leads to a free cluster, whose
bytes are no free slots and no entries. -/
def freeUpDisk : Disk := strayDisk (record (oneLetter 0x41) 0x20 0 0) 0 (List.replicate 512 0x0F)

/-- The entries of the root of the drive whose file has no cluster. -/
theorem freeUpDisk_root : used (slotsOf smallFs (smallRows [subRecord,
    record (oneLetter 0x41) 0x20 0 0]) 2) =
    [⟨subRecord, 2, 0⟩, ⟨record (oneLetter 0x41) 0x20 0 0, 2, 32⟩] := by decide +kernel

/-- The only entry of its subdirectory. -/
theorem freeUpDisk_sub : used (slotsOf smallFs (smallRows [upRecord]) 3) = [⟨upRecord, 3, 0⟩] := by
  decide +kernel

/-- Its links: both directories end at once. -/
theorem next_freeUpDisk {x : ℕ} (hx : x < 128) :
    next smallFs freeUpDisk x = if x = 2 ∨ x = 3 then 0x0FFFFFFF else 0 := by
  rw [freeUpDisk, next_strayDisk rfl List.length_replicate hx, Nat.zero_mod, ite_self]

/-- The drive is well-formed. -/
theorem volumeInv_freeUpDisk : VolumeInv smallFs freeUpDisk := by
  have hfits : smallFs.Fits freeUpDisk.capacity := strayDisk_fits rfl List.length_replicate
  have hshort : ∀ x, smallFs.InRange x →
      next smallFs freeUpDisk x = 0 ∨ Eoc (next smallFs freeUpDisk x) := by
    intro x hx
    rw [next_freeUpDisk hx.2]
    split
    · exact .inr (by decide)
    · exact .inl rfl
  have hhead : ∀ c, c = 2 ∨ c = 3 → IsHead smallFs freeUpDisk c := by
    intro c hc
    have hlt : c < 128 := by omega
    refine isHead_of_eoc hshort hfits ⟨by omega, hlt⟩ ?_
    rw [next_freeUpDisk hlt, if_pos hc]
    decide
  have hentry : ∀ e, IsEntry used smallFs freeUpDisk e → 2 ≤ e.first →
      e = ⟨subRecord, 2, 0⟩ := by
    intro e he hfirst
    refine (isEntry_strayDisk rfl List.length_replicate freeUpDisk_root freeUpDisk_sub (by decide)
      he).resolve_right ?_
    rintro rfl
    exact absurd hfirst (by decide)
  refine ⟨hfits, forest_of_eoc hshort hfits, hhead 2 (.inl rfl), fun e he hfirst => ?_,
    fun e e' he he' hfirst heq => ?_, fun f hf x _ => ?_⟩
  · obtain rfl := hentry e he hfirst
    exact ⟨hhead 3 (.inr rfl), by decide⟩
  · rw [hentry e he hfirst, hentry e' he' (heq ▸ hfirst)]
  · obtain rfl : f = 0 := Nat.lt_one_iff.1 hf
    rfl

/-- The first cluster of every directory on the way is at least 2, and `create` in the stray one
makes a cycle. -/
theorem volume_not_invariant : ¬ ∀ (fs : Fat32Fs) (d : Disk) (l : List Call), VolumeInv fs d →
    Run.Guarded (call fs) (Fresh fs fun _ c => 2 ≤ c) d l →
    VolumeInv fs (l.foldl (call fs) d) ∧ Kept fs d (l.foldl (call fs) d) := by
  intro h
  have hopened : Opened smallFs freeUpDisk (2 ≤ ·) upNode :=
    opened_upNode rfl List.length_replicate (by decide) (by decide) (by decide +kernel)
  have hcluster : cluster smallFs freeUpDisk 4 = List.replicate 512 0x0F :=
    cluster_strayDisk rfl List.length_replicate
  have hfree : firstFree smallFs freeUpDisk = some 4 := by
    refine List.find?_range_eq_some.2 ⟨decide_eq_true ⟨by decide, ?_⟩, List.mem_range.2 (by decide),
      fun x hx => ?_⟩
    · rw [next_freeUpDisk (by decide)]
      rfl
    · rw [next_freeUpDisk (hx.trans (by decide)), Bool.not_eq_true', decide_eq_false_iff_not]
      rintro ⟨h2, h0⟩
      rw [if_pos (by omega)] at h0
      exact absurd h0 (by decide)
  have hlook : lookup (slotsOf smallFs (List.replicate 512 0x0F) 4) "b" = none := by decide +kernel
  have hfull : (slotsOf smallFs (List.replicate 512 0x0F) 4).find? (·.isFree) = none := by
    decide +kernel
  obtain ⟨hinv, -⟩ := h smallFs freeUpDisk [.create 1 upNode "b"] volumeInv_freeUpDisk
    ⟨hopened, trivial⟩
  rw [List.foldl_cons, List.foldl_nil] at hinv
  have hself : next smallFs (Fat.call smallFs freeUpDisk (.create 1 upNode "b")) 4 = 4 :=
    create_links_self volumeInv_freeUpDisk.fits (show upNode.isDir = true from rfl)
      (show to83 "b" = some (oneLetter 0x42) by decide) hfree (hcluster ▸ hlook) (hcluster ▸ hfull)
  exact hinv.forest.acyclic 4 (.single ⟨by decide, by decide, hself⟩)

end Fat

end RossOs
