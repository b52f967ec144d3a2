import RossOs.Fat.Volume

/-!
# Directories

A directory is a chain of clusters, each a row of 32-byte slots (`dirSlots`), and what the driver
sees of it are the slots in use before the first slot that starts with zero (`live`). `walkDir_run`
says that `walk_dir` calls back on exactly these in order; `readdir`, `finddir` and the check in
`create` follow. `findFreeSlot_run` and `create_run` are the writing side.
-/

namespace RossOs

open ByteMem Ahci

namespace Fat

/-! ## Slots -/

/-- The first byte of a record. -/
def DirEntry.b0 (e : DirEntry) : UInt8 := e.bytes.getD 0 0

/-- The slot marks the end of the directory. -/
def DirEntry.isEnd (e : DirEntry) : Bool := e.b0 = 0x00

/-- The slot is free: it marks the end, or its entry was deleted. -/
def DirEntry.isFree (e : DirEntry) : Bool := e.b0 = 0x00 ∨ e.b0 = 0xE5

/-- The slot holds an 8.3 entry: it is not free, no part of a long name and no volume label. -/
def DirEntry.isUsed (e : DirEntry) : Bool :=
  ¬ e.isFree ∧ ¬ (attr e.bytes = 0x0F ∨ attr e.bytes &&& 0x08 ≠ 0)

/-- What `walk_dir` sees of a row of slots. -/
def live (l : List DirEntry) : List DirEntry := (l.takeWhile (!·.isEnd)).filter (·.isUsed)

/-- The slots of a cluster with the bytes `buf`. -/
def slotsOf (fs : Fat32Fs) (buf : List UInt8) (c : ℕ) : List DirEntry :=
  (List.range fs.slots).map fun i => ⟨slice buf (32 * i) 32, c, 32 * i⟩

/-- The slots of a directory with the clusters `cs`. -/
def dirSlots (fs : Fat32Fs) (d : Disk) (cs : List ℕ) : List DirEntry :=
  cs.flatMap fun c => slotsOf fs (cluster fs d c) c

/-- A chain in the FAT. -/
def FatChain (fs : Fat32Fs) (d : Disk) : ℕ → List ℕ → Prop := Chain (next fs d) fs.InRange Eoc

/-- The clusters of a directory: none when its first cluster is no cluster. -/
def DirChain (fs : Fat32Fs) (d : Disk) (c : ℕ) (cs : List ℕ) : Prop :=
  c < 2 ∧ cs = [] ∨ FatChain fs d c cs

/-- The entries before the end mark, over slots put together. -/
theorem live_append (l l' : List DirEntry) :
    live (l ++ l') = if l.any (·.isEnd) then live l else live l ++ live l' := by
  induction l with
  | nil => rfl
  | cons e l ih =>
    rw [List.cons_append, live, live, List.takeWhile_cons, List.takeWhile_cons, List.any_cons]
    cases hend : e.isEnd with
    | true => rfl
    | false =>
      simp only [Bool.not_false, if_true, Bool.false_or, List.filter_cons]
      rw [live, live, live] at ih
      rw [ih]
      split <;> split <;> simp_all [live]

/-- The entries before the end mark, slot by slot. -/
theorem live_cons (e : DirEntry) (l : List DirEntry) : live (e :: l) =
    if e.isEnd then [] else if e.isUsed then e :: live l else live l := by
  rw [live, List.takeWhile_cons]
  cases hend : e.isEnd with
  | true => rfl
  | false =>
    simp only [Bool.not_false, if_true, List.filter_cons]
    rfl

/-- A live entry is a used slot of the directory. -/
theorem mem_live {e : DirEntry} {l : List DirEntry} (h : e ∈ live l) : e ∈ l ∧ e.isUsed :=
  ⟨(List.takeWhile_subset _) (List.mem_filter.1 h).1, (List.mem_filter.1 h).2⟩

/-! ## Chains in the FAT -/

section
variable {fs : Fat32Fs} {d d' : Disk} {a x p new : ℕ} {cs : List ℕ} (hfits : fs.Fits d.capacity)
  (hchain : FatChain fs d a cs)

include hfits hchain

/-- The FAT leads along one chain from a cluster. -/
theorem FatChain.unique {cs' : List ℕ} (h : FatChain fs d a cs') : cs = cs' :=
  Chain.unique hfits.not_eoc hchain h

/-- A chain meets no cluster twice. -/
theorem FatChain.nodup : cs.Nodup := Chain.nodup hfits.not_eoc hchain

omit hfits in
/-- The clusters of a chain are not free. -/
theorem FatChain.next_ne_zero (hx : x ∈ cs) : next fs d x ≠ 0 := by
  intro h0
  rcases hchain.next_mem_or_end hx with hmem | hend
  · have hin := (hchain.mem_in _ hmem).1
    omega
  · rw [h0] at hend
    exact absurd hend (by decide)

omit hfits in
/-- A chain has a last cluster. -/
theorem FatChain.getLast?_eq (x : ℕ) : cs.getLast? = some (cs.getLastD x) := by
  rw [List.getLastD_eq_getLast?, List.getLast?_eq_some_getLast hchain.ne_nil]
  rfl

omit hfits in
/-- A free cluster is on no chain. -/
theorem FatChain.firstFree_notMem (hfree : firstFree fs d = some new) : new ∉ cs := fun hmem =>
  hchain.next_ne_zero hmem (firstFree_some hfree).2

omit hfits in
/-- A chain survives while its clusters keep their links. -/
theorem FatChain.of_next_eq (h : ∀ x ∈ cs, next fs d' x = next fs d x) : FatChain fs d' a cs :=
  Chain.congr hchain h

/-- Writing a cluster leaves every chain. -/
theorem FatChain.setCluster {c : ℕ} {bs : List UInt8} : FatChain fs (setCluster fs d c bs) a cs :=
  hchain.of_next_eq fun _ hx => next_setCluster hfits.copies (hchain.mem_in _ hx).2

/-- An allocated cluster at the end of a chain. -/
theorem FatChain.allocated (hlast : cs.getLast? = some p) (hfree : firstFree fs d = some new) :
    FatChain fs (allocated fs d (some p) new) a (cs ++ [new]) := by
  obtain ⟨hin, -⟩ := firstFree_some hfree
  have hp := (hchain.mem_in p (List.mem_of_getLast? hlast)).2
  have hnew : new < 2 ^ 28 := by
    have := hfits.entries_le
    have := hin.2
    omega
  have hnext : ∀ {y}, y < fs.entries → next fs (Fat.allocated fs d (some p) new) y =
      if some p = some y then new else if y = new then 0x0FFFFFFF else next fs d y := fun hy =>
    next_allocated hfits.copies hin hnew (fun q hq => Option.some.inj hq ▸ hp) hy
  have hpn : p ≠ new := fun h =>
    hchain.firstFree_notMem hfree (h ▸ List.mem_of_getLast? hlast)
  refine Chain.append hfits.not_eoc hchain hlast hin ?_ ?_ fun y hy hyp => ?_
  · rw [hnext hp, if_pos rfl]
  · rw [hnext hin.2, if_neg fun h => hpn (Option.some.inj h), if_pos rfl]
    decide
  · rw [hnext (hchain.mem_in y hy).2, if_neg fun h => hyp (Option.some.inj h).symm,
      if_neg fun (h : y = new) => hchain.firstFree_notMem hfree (h ▸ hy)]

end

/-! ## Walking a directory -/

section
variable {fs : Fat32Fs} {S T : Type} (f : DirEntry → S → Option T × S)

/-- The callback on a list of entries, until it returns something. -/
def callback : List DirEntry → S → Option T × S
  | [], s => (none, s)
  | e :: l, s =>
    match f e s with
    | (some v, s) => (some v, s)
    | (none, s) => callback l s

/-- The callback over entries put together stops at the first result. -/
theorem callback_append (l l' : List DirEntry) (s : S) : callback f (l ++ l') s =
    match callback f l s with
    | (some v, s) => (some v, s)
    | (none, s) => callback f l' s := by
  induction l generalizing s with
  | nil => rfl
  | cons e l ih =>
    rw [List.cons_append, callback, callback]
    rcases hf : f e s with ⟨_ | v, s'⟩
    · exact ih s'
    · rfl

/-- How the walk over the slots `l` of one cluster ends. -/
def flowOf (l : List DirEntry) (r : Option T × S) : Flow T × S :=
  match r with
  | (some v, s) => (.found v, s)
  | (none, s) => (if l.any (·.isEnd) then .stop else .more, s)

/-- A slot that is not the end mark does not end the walk. -/
theorem flowOf_cons {e : DirEntry} (he : e.isEnd = false) (l : List DirEntry) (r : Option T × S) :
    flowOf (e :: l) r = flowOf l r := by
  rcases r with ⟨_ | v, s⟩
  · simp only [flowOf, List.any_cons, he, Bool.false_or]
  · rfl

/-- The slot loop calls back on the live slots. -/
theorem walkSlots_run (buf : List UInt8) (c : ℕ) (n i : ℕ) (s : S) :
    walkSlots f buf c n i s =
      flowOf ((List.range n).map fun k => ⟨slice buf (i + 32 * k) 32, c, i + 32 * k⟩)
        (callback f (live ((List.range n).map fun k =>
          ⟨slice buf (i + 32 * k) 32, c, i + 32 * k⟩)) s) := by
  induction n generalizing i s with
  | zero => rfl
  | succ n ih =>
    have hrow : (List.range (n + 1)).map (fun k => (⟨slice buf (i + 32 * k) 32, c, i + 32 * k⟩ :
        DirEntry)) = ⟨slice buf i 32, c, i⟩ ::
          (List.range n).map fun k => ⟨slice buf (i + 32 + 32 * k) 32, c, i + 32 + 32 * k⟩ := by
      rw [List.range_succ_eq_map, List.map_cons, List.map_map]
      congr 1
      refine List.map_congr_left fun k _ => ?_
      rw [Function.comp_apply, show i + 32 * (k + 1) = i + 32 + 32 * k by omega]
    rw [hrow, live_cons, walkSlots]
    by_cases hend : (slice buf i 32).getD 0 0 = 0x00
    · have he : (⟨slice buf i 32, c, i⟩ : DirEntry).isEnd = true := decide_eq_true hend
      rw [if_pos hend, if_pos he, callback, flowOf, List.any_cons, he]
      rfl
    have he : (⟨slice buf i 32, c, i⟩ : DirEntry).isEnd = false := decide_eq_false hend
    rw [if_neg hend, flowOf_cons he, he, if_neg Bool.false_ne_true]
    by_cases hdel : (slice buf i 32).getD 0 0 = 0xE5
    · have hused : (⟨slice buf i 32, c, i⟩ : DirEntry).isUsed = false :=
        decide_eq_false fun h => h.1 (decide_eq_true (.inr hdel))
      rw [if_pos hdel, hused, ih]
      rfl
    rw [if_neg hdel]
    by_cases hskip : attr (slice buf i 32) = 0x0F ∨ attr (slice buf i 32) &&& 0x08 ≠ 0
    · have hused : (⟨slice buf i 32, c, i⟩ : DirEntry).isUsed = false :=
        decide_eq_false fun h => h.2 hskip
      rw [if_pos hskip, hused, ih]
      rfl
    have hused : (⟨slice buf i 32, c, i⟩ : DirEntry).isUsed = true :=
      decide_eq_true ⟨fun h => (of_decide_eq_true h).elim hend hdel, hskip⟩
    rw [if_neg hskip, hused, if_pos rfl, callback]
    rcases hf : f ⟨slice buf i 32, c, i⟩ s with ⟨_ | v, s'⟩
    · exact ih (i + 32) s'
    · rfl

/-- The walk over one cluster calls the callback for its live records in order. -/
theorem walkSlots_cluster (buf : List UInt8) (c : ℕ) (s : S) :
    walkSlots f buf c fs.slots 0 s =
      flowOf (slotsOf fs buf c) (callback f (live (slotsOf fs buf c)) s) := by
  have h := walkSlots_run f buf c fs.slots 0 s
  simp only [Nat.zero_add] at h
  exact h

variable {d : Disk} {c fuel : ℕ} {cs : List ℕ}

/-- The slots of a directory, cluster by cluster. -/
theorem dirSlots_cons (c : ℕ) (cs : List ℕ) :
    dirSlots fs d (c :: cs) = slotsOf fs (cluster fs d c) c ++ dirSlots fs d cs := List.flatMap_cons

/-- A cluster of a chain is no mark, and so the loops enter it. -/
theorem Fat32Fs.Fits.enter {capacity : ℕ} (hfits : fs.Fits capacity) (hc : fs.InRange c) :
    2 ≤ c ∧ c < 0x0FFFFFF8 := ⟨hc.1, Nat.lt_of_not_le (hfits.not_eoc hc)⟩

/-- The walk stops at a cluster outside its loop's bounds. -/
theorem walkDirFrom_of_out (fuel : ℕ) (hc : ¬ (2 ≤ c ∧ c < 0x0FFFFFF8)) (s : S) :
    walkDirFrom fs f fuel c s d = .ok (none, s) d := by
  cases fuel <;> rw [walkDirFrom, if_neg hc] <;> rfl

/-- Along a chain, the walk hands every live entry to the callback, or its fuel is less than the
chain's length. -/
theorem walkDirFrom_of_chain (fuel : ℕ) (hfits : fs.Fits d.capacity)
    (hchain : FatChain fs d c cs) (s : S) :
    walkDirFrom fs f fuel c s d = .ok (callback f (live (dirSlots fs d cs)) s) d ∨
      fuel < cs.length ∧ walkDirFrom fs f fuel c s d = .error .fuel d := by
  induction hchain generalizing fuel s with
  | @last c hc hend =>
    cases fuel with
    | zero =>
      rw [walkDirFrom, if_pos (hfits.enter hc)]
      exact .inr ⟨Nat.one_pos, rfl⟩
    | succ fuel =>
      left
      rw [walkDirFrom, if_pos (hfits.enter hc), Exec.bind_of_ok (readCluster_run hfits hc
        (List.length_replicate ..)), walkSlots_cluster, dirSlots_cons, dirSlots, List.flatMap_nil,
        List.append_nil]
      rcases callback f (live (slotsOf fs (cluster fs d c) c)) s with ⟨_ | v, s'⟩
      · simp only [flowOf]
        split
        · rfl
        · show (nextCluster fs c >>= fun next => walkDirFrom fs f fuel next s') d = _
          rw [Exec.bind_of_ok (nextCluster_run hfits hc.2),
            walkDirFrom_of_out _ _ fun h => Nat.not_lt.2 hend h.2]
      · rfl
  | @cons c cs hc hrest ih =>
    cases fuel with
    | zero =>
      rw [walkDirFrom, if_pos (hfits.enter hc)]
      exact .inr ⟨Nat.succ_pos _, rfl⟩
    | succ fuel =>
      rw [walkDirFrom, if_pos (hfits.enter hc), Exec.bind_of_ok (readCluster_run hfits hc
        (List.length_replicate ..)), walkSlots_cluster, dirSlots_cons, live_append]
      rcases hcall : callback f (live (slotsOf fs (cluster fs d c) c)) s with ⟨_ | v, s'⟩
      · simp only [flowOf]
        split
        · rw [hcall]
          exact .inl rfl
        · show (nextCluster fs c >>= fun next => walkDirFrom fs f fuel next s') d = _ ∨ _ ∧
            (nextCluster fs c >>= fun next => walkDirFrom fs f fuel next s') d = _
          rw [callback_append, hcall, Exec.bind_of_ok (nextCluster_run hfits hc.2),
            List.length_cons]
          exact (ih fuel s').imp_right fun h => ⟨Nat.succ_lt_succ h.1, h.2⟩
      · rw [flowOf]
        split
        · rw [hcall]
          exact .inl rfl
        · rw [callback_append, hcall]
          exact .inl rfl

/-- `walk_dir` calls back on the live slots of the directory, given fuel for its clusters. -/
theorem walkDirFrom_run (fuel : ℕ) (hfits : fs.Fits d.capacity)
    (hchain : DirChain fs d c cs) (s : S) :
    walkDirFrom fs f fuel c s d = .ok (callback f (live (dirSlots fs d cs)) s) d ∨
      fuel < cs.length ∧ walkDirFrom fs f fuel c s d = .error .fuel d := by
  rcases hchain with ⟨hc, rfl⟩ | hchain
  · exact .inl (walkDirFrom_of_out _ _ (fun h => Nat.not_le.2 hc h.1) s)
  · exact walkDirFrom_of_chain f fuel hfits hchain s

end

/-! ## Listing and looking up -/

/-- The entry that has a name, among the live ones. -/
def lookup (l : List DirEntry) (name : String) : Option DirEntry :=
  (live l).find? fun e => nameMatches e.bytes name

/-- The names of the live entries. -/
def names (l : List DirEntry) : List String := (live l).map fun e => decode83 e.bytes

section
variable {fs : Fat32Fs} {d : Disk} {node : Fat32Node} {cs : List ℕ} {fuel : ℕ} {name : String}

/-- A callback that returns at a match finds the first one. -/
theorem callback_find {T : Type} (p : DirEntry → Bool) (g : DirEntry → T) (l : List DirEntry) :
    callback (fun e (s : Unit) => (if p e then some (g e) else none, s)) l () =
      ((l.find? p).map g, ()) := by
  induction l with
  | nil => rfl
  | cons e l ih =>
    rw [callback, List.find?_cons]
    cases p e with
    | true => rfl
    | false => exact ih

/-- A callback that collects names collects them all. -/
theorem callback_collect (l : List DirEntry) (acc : List String) :
    callback (fun e names => ((none : Option Unit), names ++ [decode83 e.bytes])) l acc =
      (none, acc ++ l.map fun e => decode83 e.bytes) := by
  induction l generalizing acc with
  | nil => rw [callback, List.map_nil, List.append_nil]
  | cons e l ih =>
    rw [List.map_cons, List.append_cons]
    exact ih _

/-- A search through the directory yields the first live record that meets the condition. -/
theorem walkDir_find {T : Type} (fuel : ℕ) (hfits : fs.Fits d.capacity)
    (hchain : DirChain fs d node.firstCluster cs) (p : DirEntry → Bool) (g : DirEntry → T) :
    walkDir fs fuel node (fun e (s : Unit) => (if p e then some (g e) else none, s)) () d =
        .ok (((live (dirSlots fs d cs)).find? p).map g, ()) d ∨
      fuel < cs.length ∧ walkDir fs fuel node
        (fun e (s : Unit) => (if p e then some (g e) else none, s)) () d = .error .fuel d := by
  rw [← callback_find]
  exact walkDirFrom_run _ fuel hfits hchain _

/-- `readdir` lists the names of the live entries in order. -/
theorem readdir_run (fuel : ℕ) (hfits : fs.Fits d.capacity)
    (hchain : DirChain fs d node.firstCluster cs) (hdir : node.isDir = true) :
    node.readdir fs fuel d = .ok (names (dirSlots fs d cs)) d ∨
      fuel < cs.length ∧ node.readdir fs fuel d = .error .fuel d := by
  rw [Fat32Node.readdir, hdir, Bool.not_true, if_neg Bool.false_ne_true]
  have hwalk := walkDirFrom_run (fun e names => ((none : Option Unit),
    names ++ [decode83 e.bytes])) fuel hfits hchain []
  rw [callback_collect, List.nil_append] at hwalk
  rcases hwalk with h | ⟨hlt, h⟩
  · exact .inl (Exec.bind_of_ok (Exec.mapErr_of_ok h))
  · exact .inr ⟨hlt, Exec.bind_of_error (Exec.mapErr_of_error h)⟩

/-- `finddir` returns the first live entry with the name. -/
theorem finddir_run (fuel : ℕ) (name : String) (hfits : fs.Fits d.capacity)
    (hchain : DirChain fs d node.firstCluster cs) (hdir : node.isDir = true) :
    (node.finddir fs fuel name d = match lookup (dirSlots fs d cs) name with
      | some e => .ok (nodeOf e) d
      | none => .error (.err ()) d) ∨
      fuel < cs.length ∧ node.finddir fs fuel name d = .error .fuel d := by
  rw [Fat32Node.finddir, hdir, Bool.not_true, if_neg Bool.false_ne_true]
  rcases walkDir_find fuel hfits hchain (fun e => nameMatches e.bytes name) nodeOf with
    h | ⟨hlt, h⟩
  · rw [Exec.bind_of_ok (Exec.mapErr_of_ok h), lookup]
    left
    cases (live (dirSlots fs d cs)).find? fun e => nameMatches e.bytes name <;> rfl
  · exact .inr ⟨hlt, Exec.bind_of_error (Exec.mapErr_of_error h)⟩

/-- The node of an entry keeps the cluster of its slot. -/
@[simp] theorem parentCluster_nodeOf (e : DirEntry) : (nodeOf e).parentCluster = e.cluster := by
  rw [nodeOf]
  split <;> rfl

/-- The node of an entry keeps the offset of its slot. -/
@[simp] theorem dirEntryOffset_nodeOf (e : DirEntry) : (nodeOf e).dirEntryOffset = e.off := by
  rw [nodeOf]
  split <;> rfl

/-- `finddir` of a name that is there, with fuel for the clusters. -/
theorem finddir_of_lookup {e : DirEntry} (hfits : fs.Fits d.capacity)
    (hchain : DirChain fs d node.firstCluster cs) (hdir : node.isDir = true)
    (hlook : lookup (dirSlots fs d cs) name = some e) (hfuel : cs.length ≤ fuel) :
    node.finddir fs fuel name d = .ok (nodeOf e) d := by
  rcases finddir_run fuel name hfits hchain hdir with hrun | ⟨hlt, -⟩
  · rw [hrun, hlook]
  · exact absurd hlt (Nat.not_lt.2 hfuel)

/-- `readdir` can return these names. -/
def Lists (fs : Fat32Fs) (d : Disk) (node : Fat32Node) (l : List String) : Prop :=
  ∃ fuel, node.readdir fs fuel d = .ok l d

/-- `finddir` can return this node for the name. -/
def Finds (fs : Fat32Fs) (d : Disk) (node : Fat32Node) (name : String) (n : Fat32Node) : Prop :=
  ∃ fuel, node.finddir fs fuel name d = .ok n d

/-- What `readdir` gives on a directory with a chain: the names of its live entries. -/
theorem lists_iff (hfits : fs.Fits d.capacity) (hchain : DirChain fs d node.firstCluster cs)
    (hdir : node.isDir = true) {l : List String} :
    Lists fs d node l ↔ l = names (dirSlots fs d cs) := by
  constructor
  · rintro ⟨fuel, h⟩
    rcases readdir_run fuel hfits hchain hdir with hrun | ⟨-, hrun⟩
    · rw [hrun] at h
      cases h
      rfl
    · rw [hrun] at h
      cases h
  · rintro rfl
    exact ⟨cs.length, (readdir_run _ hfits hchain hdir).resolve_right fun h => Nat.lt_irrefl _ h.1⟩

/-- What `finddir` gives on a directory with a chain: the node of the first entry of the name. -/
theorem finds_iff (hfits : fs.Fits d.capacity) (hchain : DirChain fs d node.firstCluster cs)
    (hdir : node.isDir = true) {n : Fat32Node} :
    Finds fs d node name n ↔ ∃ e, lookup (dirSlots fs d cs) name = some e ∧ nodeOf e = n := by
  constructor
  · rintro ⟨fuel, h⟩
    rcases finddir_run fuel name hfits hchain hdir with hrun | ⟨-, hrun⟩
    · rw [hrun] at h
      cases hlook : lookup (dirSlots fs d cs) name with
      | none => rw [hlook] at h; cases h
      | some e =>
        rw [hlook] at h
        cases h
        exact ⟨e, rfl, rfl⟩
    · rw [hrun] at h
      cases h
  · rintro ⟨e, hlook, rfl⟩
    have hrun := (finddir_run _ name hfits hchain hdir).resolve_right
      fun h => Nat.lt_irrefl _ h.1
    rw [hlook] at hrun
    exact ⟨cs.length, hrun⟩

end

/-! ## Free slots -/

section
variable {fs : Fat32Fs} {d : Disk} {node : Fat32Node} {c last : ℕ} {cs : List ℕ} {fuel : ℕ}

/-- The slot `find_free_slot` picks in a cluster is the first free one. -/
theorem freeSlotIn_eq (buf : List UInt8) (c : ℕ) :
    freeSlotIn fs buf = ((slotsOf fs buf c).find? (·.isFree)).map (·.off) := by
  rw [slotsOf, List.find?_map, Option.map_map, freeSlotIn]
  congr 2
  funext i
  have hb := getD_slice buf (o := 32 * i) (n := 32) (i := 0) (by decide)
  rw [Nat.add_zero] at hb
  simp only [Function.comp_apply, DirEntry.isFree, DirEntry.b0, hb]

/-- A slot of a cluster is 32 bytes of it. -/
theorem mem_slotsOf {buf : List UInt8} {e : DirEntry} (h : e ∈ slotsOf fs buf c) :
    ∃ i < fs.slots, e = ⟨slice buf (32 * i) 32, c, 32 * i⟩ := by
  obtain ⟨i, hi, rfl⟩ := List.mem_map.1 h
  exact ⟨i, List.mem_range.1 hi, rfl⟩

/-- The search for a free slot past the end of the chain. -/
theorem findFreeSlotFrom_of_out (hc : ¬ (2 ≤ c ∧ c < 0x0FFFFFF8)) :
    findFreeSlotFrom fs fuel c last d =
      (allocCluster fs (some last) >>= fun new => pure (new, 0)) d := by
  cases fuel <;> rw [findFreeSlotFrom, if_neg hc]

/-- Along a chain, the search gives the first free slot or the last cluster. -/
theorem findFreeSlotFrom_run (fuel last : ℕ) (hfits : fs.Fits d.capacity)
    (hchain : FatChain fs d c cs) :
    (findFreeSlotFrom fs fuel c last d = match (dirSlots fs d cs).find? (·.isFree) with
      | some e => .ok (e.cluster, e.off) d
      | none => (allocCluster fs (some (cs.getLastD last)) >>= fun new => pure (new, 0)) d) ∨
      fuel < cs.length ∧ findFreeSlotFrom fs fuel c last d = .error .fuel d := by
  induction hchain generalizing fuel last with
  | @last c hc hend =>
    cases fuel with
    | zero =>
      rw [findFreeSlotFrom, if_pos (hfits.enter hc)]
      exact .inr ⟨Nat.one_pos, rfl⟩
    | succ fuel =>
      left
      rw [findFreeSlotFrom, if_pos (hfits.enter hc), Exec.bind_of_ok (readCluster_run hfits hc
        (List.length_replicate ..)), dirSlots_cons, dirSlots, List.flatMap_nil, List.append_nil,
        freeSlotIn_eq _ c]
      cases hfree : (slotsOf fs (cluster fs d c) c).find? (·.isFree) with
      | none =>
        show (nextCluster fs c >>= fun next => findFreeSlotFrom fs fuel next c) d = _
        rw [Exec.bind_of_ok (nextCluster_run hfits hc.2),
          findFreeSlotFrom_of_out fun h => Nat.not_lt.2 hend h.2]
        rfl
      | some e =>
        obtain ⟨i, -, rfl⟩ := mem_slotsOf (List.mem_of_find?_eq_some hfree)
        rfl
  | @cons c cs hc hrest ih =>
    cases fuel with
    | zero =>
      rw [findFreeSlotFrom, if_pos (hfits.enter hc)]
      exact .inr ⟨Nat.succ_pos _, rfl⟩
    | succ fuel =>
      rw [findFreeSlotFrom, if_pos (hfits.enter hc), Exec.bind_of_ok (readCluster_run hfits hc
        (List.length_replicate ..)), dirSlots_cons, List.find?_append, freeSlotIn_eq _ c]
      cases hfree : (slotsOf fs (cluster fs d c) c).find? (·.isFree) with
      | none =>
        show (nextCluster fs c >>= fun next => findFreeSlotFrom fs fuel next c) d = _ ∨ _ ∧
          (nextCluster fs c >>= fun next => findFreeSlotFrom fs fuel next c) d = _
        rw [Exec.bind_of_ok (nextCluster_run hfits hc.2), Option.none_or, List.length_cons,
          List.getLastD_cons]
        exact (ih fuel _).imp_right fun h => ⟨Nat.succ_lt_succ h.1, h.2⟩
      | some e =>
        obtain ⟨i, -, rfl⟩ := mem_slotsOf (List.mem_of_find?_eq_some hfree)
        exact .inl rfl

/-- The last cluster of a directory has an entry in the FAT. -/
theorem DirChain.getLastD_lt (hchain : DirChain fs d c cs) :
    cs.getLastD c < 2 ∨ cs.getLastD c < fs.entries := by
  rcases hchain with ⟨hc, rfl⟩ | hchain
  · exact .inl hc
  · exact .inr (hchain.mem_in _ (List.mem_of_getLast? (hchain.getLast?_eq c))).2

/-- The slot that `find_free_slot` chooses, and the drive it leaves: the first free slot of the
directory, or the first slot of a cluster that it adds. -/
inductive Placed (fs : Fat32Fs) (d : Disk) (c : ℕ) (cs : List ℕ) : (p off : ℕ) → Disk → Prop
  | slot {e : DirEntry} : (dirSlots fs d cs).find? (·.isFree) = some e →
      Placed fs d c cs e.cluster e.off d
  | grown {new : ℕ} : (dirSlots fs d cs).find? (·.isFree) = none → firstFree fs d = some new →
      Placed fs d c cs new 0 (allocated fs d (some (cs.getLastD c)) new)

/-- `find_free_slot` chooses a slot unless the disk is full, given fuel for the directory. -/
theorem findFreeSlot_run (fuel : ℕ) (hfits : fs.Fits d.capacity)
    (hchain : DirChain fs d node.firstCluster cs) :
    (∃ p off d₁, findFreeSlot fs fuel node d = .ok (p, off) d₁ ∧
      Placed fs d node.firstCluster cs p off d₁) ∨
    ((dirSlots fs d cs).find? (·.isFree) = none ∧ firstFree fs d = none ∧
      findFreeSlot fs fuel node d = .error (.err "FAT32: disk full") d) ∨
    (fuel < cs.length ∧ findFreeSlot fs fuel node d = .error .fuel d) := by
  have halloc := allocCluster_run (some (cs.getLastD node.firstCluster)) hfits
    fun p hp => Option.some.inj hp ▸ hchain.getLastD_lt
  -- the end of the search, without a free slot
  have hnone : (dirSlots fs d cs).find? (·.isFree) = none → findFreeSlot fs fuel node d =
      (allocCluster fs (some (cs.getLastD node.firstCluster)) >>= fun new => pure (new, 0)) d →
      (∃ p off d₁, findFreeSlot fs fuel node d = .ok (p, off) d₁ ∧
        Placed fs d node.firstCluster cs p off d₁) ∨
      ((dirSlots fs d cs).find? (·.isFree) = none ∧ firstFree fs d = none ∧
        findFreeSlot fs fuel node d = .error (.err "FAT32: disk full") d) := by
    intro hfree hrun
    rw [hrun]
    cases hfirst : firstFree fs d with
    | none =>
      rw [hfirst] at halloc
      exact .inr ⟨hfree, rfl, Exec.bind_of_error halloc⟩
    | some new =>
      rw [hfirst] at halloc
      exact .inl ⟨new, 0, _, Exec.bind_of_ok halloc, .grown hfree hfirst⟩
  rcases hchain with ⟨hc, rfl⟩ | hchain
  · exact or_assoc.1 (.inl (hnone rfl (findFreeSlotFrom_of_out fun h => Nat.not_le.2 hc h.1)))
  · rcases findFreeSlotFrom_run fuel node.firstCluster hfits hchain with
      h | ⟨hlt, h⟩
    · cases hfree : (dirSlots fs d cs).find? (·.isFree) with
      | none =>
        rw [hfree] at h hnone
        exact or_assoc.1 (.inl (hnone rfl h))
      | some e =>
        rw [hfree] at h
        exact .inl ⟨_, _, d, h, .slot hfree⟩
    · exact .inr (.inr ⟨hlt, h⟩)

end

/-! ## Creating an entry -/

section
variable {fs : Fat32Fs} {d d' : Disk} {node n : Fat32Node} {cs : List ℕ} {fuel p off : ℕ}
  {name : String} {raw buf : List UInt8}

/-- A padded name field has its length. -/
theorem length_nameField {k : ℕ} {bs : List UInt8} (h : bs.length ≤ k) :
    (nameField k bs).length = k := by
  rw [nameField, List.length_append, List.length_map, List.length_replicate]
  omega

/-- An 8.3 name has eleven bytes. -/
theorem length_to83 (h : to83 name = some raw) : raw.length = 11 := by
  rw [to83] at h
  split at h
  · cases h
  · rename_i hfit
    cases h
    rw [List.length_append, length_nameField (by omega), length_nameField (by omega)]

/-- A fresh record has 32 bytes. -/
theorem length_newRecord (h : raw.length = 11) : (newRecord raw).length = 32 := by
  rw [newRecord, List.length_append, List.length_append, h, List.length_replicate]
  rfl

/-- Putting a record into a cluster leaves its length. -/
theorem length_putRecord (fs : Fat32Fs) (off : ℕ) (buf : List UInt8) (h : raw.length = 11)
    (hoff : off + 32 ≤ fs.clusterSizeBytes) (hbuf : buf.length = fs.clusterSizeBytes) :
    (putRecord fs raw off buf).length = fs.clusterSizeBytes := by
  have hnew : (splice buf off (newRecord raw)).length = fs.clusterSizeBytes := by
    rw [length_splice, hbuf]
    rw [length_newRecord h, hbuf]
    exact hoff
  rw [putRecord]
  split
  · rw [length_splice, hnew]
    rw [hnew, List.length_singleton]
    omega
  · exact hnew

/-- The slots of a cluster fill it. -/
theorem Fat32Fs.slots_eq (fs : Fat32Fs) : 32 * fs.slots = fs.clusterSizeBytes := by
  rw [Fat32Fs.slots, Fat32Fs.clusterSizeBytes]
  omega

/-- A slot of a directory is 32 bytes of one of its clusters. -/
theorem mem_dirSlots {e : DirEntry} (h : e ∈ dirSlots fs d cs) : e.cluster ∈ cs ∧
    ∃ i < fs.slots, e.off = 32 * i ∧ e.bytes = slice (cluster fs d e.cluster) (32 * i) 32 := by
  obtain ⟨c, hc, he⟩ := List.mem_flatMap.1 h
  obtain ⟨i, hi, rfl⟩ := mem_slotsOf he
  exact ⟨hc, i, hi, rfl, rfl⟩

/-- The chosen slot is inside a cluster of the volume. -/
theorem Placed.inRange {c : ℕ} (h : Placed fs d c cs p off d') (hchain : DirChain fs d c cs) :
    fs.InRange p ∧ off + 32 ≤ fs.clusterSizeBytes ∧ d'.capacity = d.capacity := by
  have hcb := fs.slots_eq
  cases h with
  | slot hfree =>
    obtain ⟨hp, i, hi, hoff, -⟩ := mem_dirSlots (List.mem_of_find?_eq_some hfree)
    rcases hchain with ⟨-, rfl⟩ | hchain
    · cases hp
    · refine ⟨hchain.mem_in _ hp, ?_, rfl⟩
      rw [hoff]
      omega
  | grown _ hfirst =>
    obtain ⟨hin, -⟩ := firstFree_some hfirst
    have hpos := fs.clusterSizeBytes_pos
    refine ⟨hin, by omega, allocated_capacity hin fun x hx => ?_⟩
    cases hx
    exact lt_entries_of_lt_two hin hchain.getLastD_lt

/-- What a successful `create` has done. -/
structure Created (fs : Fat32Fs) (d : Disk) (node : Fat32Node) (cs : List ℕ) (name : String)
    (n : Fat32Node) (d' : Disk) (raw : List UInt8) (p off : ℕ) (d₁ : Disk) : Prop where
  isDir : node.isDir = true
  name83 : to83 name = some raw
  noDup : lookup (dirSlots fs d cs) name = none
  placed : Placed fs d node.firstCluster cs p off d₁
  node_eq : n = .file 0 0 p off
  disk_eq : d' = setCluster fs d₁ p (putRecord fs raw off (cluster fs d₁ p))

/-- `create` of a name that is not there puts its record into the chosen slot. -/
theorem create_run (fuel : ℕ) (hfits : fs.Fits d.capacity)
    (hchain : DirChain fs d node.firstCluster cs) (hdir : node.isDir = true)
    (hraw : to83 name = some raw)
    (hdup : lookup (dirSlots fs d cs) name = none) :
    (∃ n d' p off d₁, node.create fs fuel name d = .ok n d' ∧
      Created fs d node cs name n d' raw p off d₁) ∨
    ((dirSlots fs d cs).find? (·.isFree) = none ∧ firstFree fs d = none ∧
      node.create fs fuel name d = .error (.err ()) d) ∨
    (fuel < cs.length ∧ node.create fs fuel name d = .error .fuel d) := by
  rw [Fat32Node.create, hdir, Bool.not_true, if_neg Bool.false_ne_true, hraw]
  simp only
  rcases walkDir_find fuel hfits hchain (fun e => nameMatches e.bytes name)
    (fun _ => ()) with h | ⟨hlt, h⟩
  · rw [show (live (dirSlots fs d cs)).find? (fun e => nameMatches e.bytes name) = none from hdup]
      at h
    rw [Exec.bind_of_ok (Exec.mapErr_of_ok h)]
    simp only [Option.map_none, Option.isSome_none, Bool.false_eq_true, if_false]
    rcases findFreeSlot_run fuel hfits hchain with
      ⟨p, off, d₁, hrun, hplaced⟩ | ⟨hfree, hfull, hrun⟩ | ⟨hlt, hrun⟩
    · obtain ⟨hp, hoff, hcap⟩ := hplaced.inRange hchain
      have hmod := modifyCluster_run (g := putRecord fs raw off) (hcap ▸ hfits) hp
        (length_putRecord _ _ _ (length_to83 hraw) hoff (length_cluster ..))
      rw [Exec.bind_of_ok (Exec.mapErr_of_ok hrun), Exec.bind_of_ok (Exec.mapErr_of_ok hmod)]
      exact .inl ⟨_, _, p, off, d₁, rfl, hdir, hraw, hdup, hplaced, rfl, rfl⟩
    · exact .inr (.inl ⟨hfree, hfull, Exec.bind_of_error (Exec.mapErr_of_error hrun)⟩)
    · exact .inr (.inr ⟨hlt, Exec.bind_of_error (Exec.mapErr_of_error hrun)⟩)
  · exact .inr (.inr ⟨hlt, Exec.bind_of_error (Exec.mapErr_of_error h)⟩)

/-- `create` makes the entry, or leaves the drive as it was. -/
theorem create_sat (hfits : fs.Fits d.capacity) (hchain : DirChain fs d node.firstCluster cs) :
    Exec.Sat (node.create fs fuel name d)
      (fun n d' => ∃ raw p off d₁, Created fs d node cs name n d' raw p off d₁)
      (fun _ d' => d' = d) := by
  cases hdir : node.isDir with
  | false =>
    rw [Fat32Node.create, hdir]
    exact Exec.sat_error.2 rfl
  | true =>
    cases hraw : to83 name with
    | none =>
      rw [Fat32Node.create, hdir, Bool.not_true, if_neg Bool.false_ne_true, hraw]
      exact Exec.sat_error.2 rfl
    | some raw =>
      cases hdup : lookup (dirSlots fs d cs) name with
      | none =>
        rcases create_run fuel hfits hchain hdir hraw hdup with
          ⟨n, d', p, off, d₁, hrun, hcreated⟩ | ⟨-, -, hrun⟩ | ⟨-, hrun⟩
        · rw [hrun]
          exact Exec.sat_ok.2 ⟨raw, p, off, d₁, hcreated⟩
        · rw [hrun]
          exact Exec.sat_error.2 rfl
        · rw [hrun]
          exact Exec.sat_error.2 rfl
      | some e =>
        rw [Fat32Node.create, hdir, Bool.not_true, if_neg Bool.false_ne_true, hraw]
        simp only
        rcases walkDir_find fuel hfits hchain (fun e => nameMatches e.bytes name)
          (fun _ => ()) with h | ⟨-, h⟩
        · rw [show (live (dirSlots fs d cs)).find? (fun e => nameMatches e.bytes name) = some e
            from hdup] at h
          rw [Exec.bind_of_ok (Exec.mapErr_of_ok h)]
          exact Exec.sat_error.2 rfl
        · rw [Exec.bind_of_error (Exec.mapErr_of_error h)]
          exact Exec.sat_error.2 rfl

end

/-! ## Small volumes

Volumes of one FAT sector and one sector a cluster, given by a table of their clusters. -/

/-- A volume with 126 clusters, the first one the root directory. -/
def smallFs : Fat32Fs where
  bpb :=
    { sectorsPerCluster := 1
      reservedSectors := 1
      numFats := 1
      fatSizeSectors := 1
      rootCluster := 2
      sectorsPerCluster_pow := ⟨0, rfl⟩
      sectorsPerCluster_lt := by decide
      reservedSectors_lt := by decide
      numFats_lt := by decide
      fatSizeSectors_lt := by decide
      rootCluster_lt := by decide }

/-- The drive for it, with these clusters: number, link and bytes. -/
def smallDisk : List (ℕ × ℕ × List UInt8) → Disk
  | [] => ⟨128, by decide, fun _ => 0⟩
  | (c, v, bs) :: l => setCluster smallFs (setFat smallFs (smallDisk l) c v) c bs

/-- A record of a directory. -/
def record (raw : List UInt8) (attr : UInt8) (first size : ℕ) : List UInt8 :=
  raw ++ [attr] ++ List.replicate 8 0 ++ toLe 2 (first / 2 ^ 16) ++ List.replicate 4 0 ++
    toLe 2 first ++ toLe 4 size

/-- A cluster of a directory with these records first. -/
def smallRows (records : List (List UInt8)) : List UInt8 :=
  records.flatten ++ List.replicate (512 - 32 * records.length) 0

/-- At most sixteen records fill one sector. -/
theorem length_smallRows (records : List (List UInt8)) (h : ∀ r ∈ records, r.length = 32)
    (hrows : records.length ≤ 16) : (smallRows records).length = 512 := by
  have hsum : records.flatten.length = 32 * records.length := by
    rw [List.length_flatten, List.map_congr_left h, List.map_const',
      List.sum_replicate_nat, Nat.mul_comm]
  rw [smallRows, List.length_append, hsum, List.length_replicate]
  omega

section
variable {l : List (ℕ × ℕ × List UInt8)} {x : ℕ}

/-- The small volume fits its drive. -/
theorem smallFs_fits : smallFs.Fits 128 := by
  refine ⟨by decide, by decide, fun c hc => ?_⟩
  have hlt : c < 128 := hc.2
  show 2 + (c - 2) * 1 + 1 ≤ 128
  omega

variable (hl : ∀ e ∈ l, 2 ≤ e.1 ∧ e.1 < 128 ∧ e.2.2.length = 512)

include hl

/-- The small drive has 128 sectors. -/
theorem smallDisk_capacity : (smallDisk l).capacity = 128 := by
  induction l with
  | nil => rfl
  | cons e l ih =>
    obtain ⟨c, v, bs⟩ := e
    obtain ⟨⟨-, hc, -⟩, htail⟩ := List.forall_mem_cons.1 hl
    exact (setFat_capacity hc).trans (ih htail)

/-- The FAT of a small drive, as its rows give it. -/
theorem next_smallDisk (hx : x < 128) : next smallFs (smallDisk l) x =
    (l.find? (·.1 == x)).elim 0 (·.2.1) % 2 ^ 28 := by
  induction l with
  | nil =>
    have hzero : read (smallDisk []).bytes (fatAddr smallFs 0 x) 4 = List.replicate 4 0 := rfl
    rw [next, fat, hzero, leNat_replicate_zero]
    rfl
  | cons e l ih =>
    obtain ⟨c, v, bs⟩ := e
    obtain ⟨⟨-, hc, -⟩, htail⟩ := List.forall_mem_cons.1 hl
    rw [smallDisk, next_setCluster le_rfl hx, next_setFat le_rfl hc hx, ih htail, List.find?_cons]
    by_cases hxc : x = c
    · subst hxc
      rw [if_pos rfl, BEq.rfl]
      rfl
    · rw [if_neg hxc, beq_false_of_ne (Ne.symm hxc)]

/-- The clusters of a small drive, as its rows give them. -/
theorem cluster_smallDisk (hx : 2 ≤ x) : cluster smallFs (smallDisk l) x =
    (l.find? (·.1 == x)).elim (List.replicate 512 0) (·.2.2) := by
  induction l with
  | nil =>
    show (List.range 512).map (fun _ => (0 : UInt8)) = List.replicate 512 0
    rw [List.map_const', List.length_range]
  | cons e l ih =>
    obtain ⟨c, v, bs⟩ := e
    obtain ⟨⟨hc2, hc, hlen⟩, htail⟩ := List.forall_mem_cons.1 hl
    rw [smallDisk, cluster_setCluster hlen hc2 hx, cluster_setFat hc, ih htail, List.find?_cons]
    by_cases hxc : x = c
    · subst hxc
      rw [if_pos rfl, BEq.rfl]
      rfl
    · rw [if_neg hxc, beq_false_of_ne (Ne.symm hxc)]

end

end Fat

end RossOs
