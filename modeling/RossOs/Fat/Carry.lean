import Mathlib.Data.List.Find
import RossOs.Fat.Growth
import RossOs.Fat.Names

/-!
# The directories after a call

A call of `create` or `write` changes the slots of a directory in one place: the record of the file
that is written, or a slot that was free. `Carries` says for a whole volume that every lookup yields
what became of the entry it yielded before. It follows that paths lead where they led
(`Carries.leads`), and, with the one chain that grew, that the volume stays well-formed
(`WellFormed.carries`).
-/

namespace RossOs

open ByteMem

namespace Fat

/-- The entry of an empty file. -/
def IsFresh (e : DirEntry) : Prop := nodeOf e = .file 0 0 e.cluster e.off

/-- What became of the entries of a directory: an entry `e` became `f e`, which is found under the
same names, and an entry that was not there is that of an empty file. -/
structure CarriesDir (f : DirEntry → DirEntry) (l l' : List DirEntry) : Prop where
  lookup : ∀ {name e}, lookup l name = some e → Fat.lookup l' name = some (f e)
  live : ∀ {e}, e ∈ live l → f e ∈ Fat.live l'
  isDirectory : ∀ {e}, e ∈ Fat.live l → (f e).isDirectory = e.isDirectory
  isDot : ∀ {e}, e ∈ Fat.live l → (f e).isDot = e.isDot
  dir : ∀ {e}, e ∈ Fat.live l → e.isDirectory = true → f e = e
  back : ∀ {e'}, e' ∈ Fat.live l' → (∃ e ∈ Fat.live l, f e = e') ∨ IsFresh e'

/-- What became of the directories of a volume. -/
structure Carries (fs : Fat32Fs) (d d' : Disk) (f : DirEntry → DirEntry) : Prop where
  fits : fs.Fits d'.capacity
  dir : ∀ {c l}, IsDir live fs d c → FatChain fs d c l →
    ∃ l', FatChain fs d' c l' ∧ CarriesDir f (dirSlots fs d l) (dirSlots fs d' l')

/-- The names lead from the directory `c` through directories of the volume. -/
inductive Leads (fs : Fat32Fs) (d : Disk) : ℕ → List String → ℕ → Prop
  | nil (c : ℕ) : Leads fs d c [] c
  | cons {c c' : ℕ} {cs : List ℕ} {name : String} {names : List String} {e : DirEntry} :
    FatChain fs d c cs → lookup (dirSlots fs d cs) name = some e → e.isDirectory = true →
    IsDir live fs d e.first → Leads fs d e.first names c' → Leads fs d c (name :: names) c'

/-- The root, or an entry, with its chain. -/
def Owns (fs : Fat32Fs) (d : Disk) (cs : List ℕ) : Option DirEntry → Prop
  | none => FatChain fs d fs.bpb.rootCluster cs
  | some e => IsEntry live fs d e ∧ DirChain fs d e.first cs

/-! ## Directories and paths -/

/-- The entry of an empty file has no first cluster. -/
theorem IsFresh.first {e : DirEntry} (h : IsFresh e) : e.first = 0 := by
  rw [← firstCluster_nodeOf, h]
  rfl

/-- The entry of an empty file is no directory. -/
theorem IsFresh.isDirectory {e : DirEntry} (h : IsFresh e) : e.isDirectory = false := by
  rw [← isDir_nodeOf, h]
  rfl

section
variable {fs : Fat32Fs} {d d' : Disk} {f : DirEntry → DirEntry} {c c' : ℕ} {names : List String}
  {e' : DirEntry}

/-- Names lead from a directory to a directory. -/
theorem Leads.isDir (h : Leads fs d c names c') (hc : IsDir live fs d c) : IsDir live fs d c' := by
  induction h with
  | nil => exact hc
  | cons _ _ _ hdir _ ih => exact ih hdir

/-- Names lead to one directory. -/
theorem Leads.unique {c'' : ℕ} (hfits : fs.Fits d.capacity) (h : Leads fs d c names c')
    (h' : Leads fs d c names c'') : c' = c'' := by
  induction h with
  | nil =>
    cases h'
    rfl
  | cons hcs hlook _ _ _ ih =>
    cases h' with
    | cons hcs' hlook' _ _ h' =>
      obtain rfl := hcs.unique hfits hcs'
      obtain rfl := Option.some.inj (hlook.symm.trans hlook')
      exact ih h'

/-- The directories are still directories. -/
theorem Carries.isDir (h : Carries fs d d' f) (hc : IsDir live fs d c) : IsDir live fs d' c := by
  induction hc with
  | root => exact .root
  | @sub c l e hc hl he hdir hdot hfirst ih =>
    obtain ⟨l', hl', hslots⟩ := h.dir hc hl
    have he' := hslots.live he
    rw [hslots.dir he hdir] at he'
    exact .sub ih hl' he' hdir hdot hfirst

/-- An entry is still an entry, as what it became. -/
theorem Carries.isEntry {e : DirEntry} (h : Carries fs d d' f) (he : IsEntry live fs d e) :
    IsEntry live fs d' (f e) := by
  obtain ⟨c, l, hc, hl, hmem, hdot⟩ := he
  obtain ⟨l', hl', hslots⟩ := h.dir hc hl
  refine ⟨c, l', h.isDir hc, hl', hslots.live hmem, ?_⟩
  rwa [hslots.isDirectory hmem, hslots.isDot hmem]

/-- Paths lead where they led. -/
theorem Carries.leads (h : Carries fs d d' f) (hleads : Leads fs d c names c')
    (hc : IsDir live fs d c) : Leads fs d' c names c' := by
  induction hleads with
  | nil => exact .nil _
  | @cons c c' cs name names e hcs hlook hdir hsub _ ih =>
    obtain ⟨l', hl', hslots⟩ := h.dir hc hcs
    have hlook' := hslots.lookup hlook
    rw [hslots.dir (List.mem_of_find?_eq_some hlook) hdir] at hlook'
    exact .cons hl' hlook' hdir (h.isDir hsub) (ih hsub)

/-- There are no new directories. -/
theorem Carries.of_isDir (h : Carries fs d d' f) (hwf : WellFormed fs d)
    (hc : IsDir live fs d' c) : IsDir live fs d c := by
  induction hc with
  | root => exact .root
  | @sub c cs e' _ hcs he' hdir hdot hfirst ih =>
    obtain ⟨l, hl⟩ := hwf.chain_of_isDir ih
    obtain ⟨l', hl', hslots⟩ := h.dir ih hl
    obtain rfl := hcs.unique h.fits hl'
    rcases hslots.back he' with ⟨e, he, rfl⟩ | hfresh
    · rw [hslots.isDirectory he] at hdir
      rw [hslots.dir he hdir] at hdot hfirst ⊢
      exact .sub ih hl he hdir hdot hfirst
    · rw [hfresh.isDirectory] at hdir
      cases hdir

/-- An entry was one before, or is that of an empty file. -/
theorem Carries.of_isEntry (h : Carries fs d d' f) (hwf : WellFormed fs d)
    (he' : IsEntry live fs d' e') : (∃ e, IsEntry live fs d e ∧ f e = e') ∨ IsFresh e' := by
  obtain ⟨c, cs, hc, hcs, hmem, hdot⟩ := he'
  have hc := h.of_isDir hwf hc
  obtain ⟨l, hl⟩ := hwf.chain_of_isDir hc
  obtain ⟨l', hl', hslots⟩ := h.dir hc hl
  obtain rfl := hcs.unique h.fits hl'
  refine (hslots.back hmem).imp_left ?_
  rintro ⟨e, he, rfl⟩
  rw [hslots.isDirectory he, hslots.isDot he] at hdot
  exact ⟨e, ⟨c, l, hc, hl, he, hdot⟩, rfl⟩

end

/-! ## Chains -/

section
variable {fs : Fat32Fs} {d d' : Disk} {f : DirEntry → DirEntry} {q : ℕ} {cs cs' l₁ l₂ : List ℕ}
  {o o₁ o₂ : Option DirEntry}

/-- Two chains of different owners have no cluster in common. -/
theorem WellFormed.apart_owners (h : WellFormed fs d) (h₁ : Owns fs d l₁ o₁)
    (h₂ : Owns fs d l₂ o₂) (hne : o₁ ≠ o₂) : ∀ x ∈ l₁, x ∉ l₂ := by
  cases o₁ with
  | none =>
    cases o₂ with
    | none => exact absurd rfl hne
    | some e => exact h.apartRoot e l₁ l₂ h₂.1 h₁ h₂.2
  | some e =>
    cases o₂ with
    | none => exact fun x hx hx' => h.apartRoot e l₂ l₁ h₁.1 h₂ h₁.2 x hx' hx
    | some e' =>
      exact h.apart e e' l₁ l₂ h₁.1 h₂.1 (fun heq => hne (congrArg some heq)) h₁.2 h₂.2

/-- The first cluster of an owner after the call. -/
def firstAfter (fs : Fat32Fs) (f : DirEntry → DirEntry) (o : Option DirEntry) : ℕ :=
  o.elim fs.bpb.rootCluster fun e => (f e).first

variable (h : WellFormed fs d) (hcarries : Carries fs d d' f) (hgrows : Grows fs q d cs d' cs')
  (hold : Owns fs d cs o) (hnew : DirChain fs d' (firstAfter fs f o) cs')
  (hfirst : ∀ e, IsEntry live fs d e → some e ≠ o → (f e).first = e.first)

include h hgrows hold hnew hfirst

/-- The chain of an owner: the one that grew, or as before and apart from it. -/
theorem WellFormed.chain_after (o₁ : Option DirEntry) (howns : Owns fs d l₁ o₁) :
    ∃ l', DirChain fs d' (firstAfter fs f o₁) l' ∧ (o₁ = o → l' = cs') ∧
      (o₁ ≠ o → l' = l₁ ∧ ∀ x ∈ l₁, x ∉ cs') := by
  by_cases heq : o₁ = o
  · subst heq
    exact ⟨cs', hnew, fun _ => rfl, fun hne => absurd rfl hne⟩
  · have hchain : DirChain fs d (firstAfter fs f o₁) l₁ := by
      cases o₁ with
      | none => exact .inr howns
      | some e =>
        rw [firstAfter, Option.elim_some, hfirst e howns.1 heq]
        exact howns.2
    obtain ⟨hchain', hout⟩ := hgrows.dirChain h.fits.copies hchain (h.apart_owners howns hold heq)
    exact ⟨l₁, hchain', fun heq' => absurd heq' heq, fun _ => ⟨rfl, hout⟩⟩

/-- The chains of two owners are still apart. -/
theorem WellFormed.apart_after (hfits : fs.Fits d'.capacity) (o₁ o₂ : Option DirEntry)
    {l₁' l₂' : List ℕ} (h₁ : Owns fs d l₁ o₁) (h₂ : Owns fs d l₂ o₂) (hne : o₁ ≠ o₂)
    (hl₁ : DirChain fs d' (firstAfter fs f o₁) l₁')
    (hl₂ : DirChain fs d' (firstAfter fs f o₂) l₂') : ∀ x ∈ l₁', x ∉ l₂' := by
  obtain ⟨m₁, hm₁, hgrown₁, hkept₁⟩ := h.chain_after hgrows hold hnew hfirst o₁ h₁
  obtain ⟨m₂, hm₂, hgrown₂, hkept₂⟩ := h.chain_after hgrows hold hnew hfirst o₂ h₂
  obtain rfl := hl₁.unique hfits hm₁
  obtain rfl := hl₂.unique hfits hm₂
  by_cases heq₁ : o₁ = o
  · obtain rfl := hgrown₁ heq₁
    obtain ⟨rfl, hout⟩ := hkept₂ fun heq₂ => hne (heq₁.trans heq₂.symm)
    exact fun x hx hx' => hout x hx' hx
  · obtain ⟨rfl, hout⟩ := hkept₁ heq₁
    by_cases heq₂ : o₂ = o
    · obtain rfl := hgrown₂ heq₂
      exact hout
    · obtain ⟨rfl, -⟩ := hkept₂ heq₂
      exact h.apart_owners h₁ h₂ hne

include hcarries

/-- A volume stays well-formed when what became of its entries keeps their chains, but for the one
chain that grew. -/
theorem WellFormed.carries
    (hcovers : ∀ e l, IsEntry live fs d e → e.isDirectory = false →
      DirChain fs d' (f e).first l → (nodeOf (f e)).size ≤ l.length * fs.clusterSizeBytes) :
    WellFormed fs d' := by
  have hfits := hcarries.fits
  have hempty : ∀ e l, IsFresh e → DirChain fs d' e.first l → l = [] := by
    intro e l hfresh hl
    rw [hfresh.first] at hl
    exact hl.unique hfits (.inl ⟨Nat.two_pos, rfl⟩)
  obtain ⟨lr, hlr⟩ := h.root
  refine ⟨hfits, ?_, fun e' he' => ?_, fun e' l l' he' hl hl' => ?_,
    fun e₁ e₂ l₁ l₂ he₁ he₂ hne hl₁ hl₂ => ?_, fun e' l he' hfile hl => ?_⟩
  · obtain ⟨l', hl', -⟩ := h.chain_after hgrows hold hnew hfirst none hlr
    refine ⟨l', hl'.resolve_left fun hlt => ?_⟩
    exact absurd (hlr.mem_in _ hlr.head_mem).1 (Nat.not_le.2 hlt.1)
  · rcases hcarries.of_isEntry h he' with ⟨e, he, rfl⟩ | hfresh
    · obtain ⟨l, hl⟩ := h.chain e he
      obtain ⟨l', hl', -⟩ := h.chain_after hgrows hold hnew hfirst (some e) ⟨he, hl⟩
      exact ⟨l', hl'⟩
    · exact ⟨[], .inl ⟨by rw [hfresh.first]; exact Nat.two_pos, rfl⟩⟩
  · rcases hcarries.of_isEntry h he' with ⟨e, he, rfl⟩ | hfresh
    · obtain ⟨l₀, hl₀⟩ := h.chain e he
      exact h.apart_after hgrows hold hnew hfirst hfits none (some e) hlr ⟨he, hl₀⟩
        (Option.some_ne_none e).symm (.inr hl) hl'
    · rw [hempty e' l' hfresh hl']
      exact fun x _ => List.not_mem_nil
  · rcases hcarries.of_isEntry h he₁ with ⟨x₁, hx₁, rfl⟩ | hfresh
    · rcases hcarries.of_isEntry h he₂ with ⟨x₂, hx₂, rfl⟩ | hfresh
      · obtain ⟨m₁, hm₁⟩ := h.chain x₁ hx₁
        obtain ⟨m₂, hm₂⟩ := h.chain x₂ hx₂
        refine h.apart_after hgrows hold hnew hfirst hfits (some x₁) (some x₂)
          ⟨hx₁, hm₁⟩ ⟨hx₂, hm₂⟩ ?_ hl₁ hl₂
        rintro ⟨rfl⟩
        exact hne rfl
      · rw [hempty e₂ l₂ hfresh hl₂]
        exact fun x _ => List.not_mem_nil
    · rw [hempty e₁ l₁ hfresh hl₁]
      exact fun x hx => absurd hx List.not_mem_nil
  · rcases hcarries.of_isEntry h he' with ⟨e, he, rfl⟩ | hfresh
    · refine hcovers e l he ?_ hl
      obtain ⟨c, m, hc, hm, hmem, -⟩ := id he
      obtain ⟨m', -, hslots⟩ := hcarries.dir hc hm
      rwa [hslots.isDirectory hmem] at hfile
    · rw [hfresh]
      exact Nat.zero_le _

end

/-! ## `write` -/

section
variable {e e' : DirEntry} {l : List DirEntry} {f : DirEntry → DirEntry}

/-- What a lookup takes from a record is its first twelve bytes. -/
theorem DirEntry.congr_head (h : slice e'.bytes 0 12 = slice e.bytes 0 12) :
    e'.isEnd = e.isEnd ∧ e'.isUsed = e.isUsed ∧ e'.isDirectory = e.isDirectory ∧
      decode83 e'.bytes = decode83 e.bytes := by
  have hbyte : ∀ i < 12, e'.bytes.getD i 0 = e.bytes.getD i 0 := by
    intro i hi
    have hboth := congrArg (·.getD i 0) h
    simpa only [getD_slice _ hi, Nat.zero_add] using hboth
  have hb0 : e'.b0 = e.b0 := hbyte 0 (by decide)
  have hattr : attr e'.bytes = attr e.bytes := hbyte 0x0B (by decide)
  have hname : slice e'.bytes 0 11 = slice e.bytes 0 11 := by
    have hboth := congrArg (slice · 0 11) h
    simpa only [slice_slice _ (show 0 + 11 ≤ 12 by decide)] using hboth
  refine ⟨?_, ?_, ?_, decode83_congr hname⟩
  · rw [DirEntry.isEnd, DirEntry.isEnd, hb0]
  · rw [DirEntry.isUsed, DirEntry.isUsed, DirEntry.isFree, DirEntry.isFree, hb0, hattr]
  · rw [DirEntry.isDirectory, DirEntry.isDirectory, hattr]

/-- A change of the records behind their names and attributes keeps the entries apart. -/
theorem live_map (h : ∀ e ∈ l, slice (f e).bytes 0 12 = slice e.bytes 0 12) :
    live (l.map f) = (live l).map f := by
  induction l with
  | nil => rfl
  | cons e l ih =>
    obtain ⟨he, hl⟩ := List.forall_mem_cons.1 h
    obtain ⟨hend, hused, -⟩ := DirEntry.congr_head he
    rw [List.map_cons, live_cons, live_cons, hend, hused, ih hl]
    split
    · rfl
    · split <;> rfl

/-- A change of the records behind their names and attributes is found where it was. -/
theorem lookup_map (h : ∀ e ∈ l, slice (f e).bytes 0 12 = slice e.bytes 0 12) (name : String) :
    lookup (l.map f) name = (lookup l name).map f := by
  rw [lookup, live_map h, List.find?_map]
  refine congrArg (Option.map f) (List.find?_congr fun e he => ?_)
  obtain ⟨-, -, -, hname⟩ := DirEntry.congr_head (h e (mem_live he).1)
  rw [Function.comp_apply, nameMatches, nameMatches, hname]

end

/-- What became of an entry when the file `node` was written: its record is now what the disk `d'`
has there. -/
def patched (fs : Fat32Fs) (node : Fat32Node) (d' : Disk) (e : DirEntry) : DirEntry :=
  if e.cluster = node.parentCluster ∧ e.off = node.dirEntryOffset then
    ⟨slice (cluster fs d' e.cluster) e.off 32, e.cluster, e.off⟩
  else e

section
variable {fs : Fat32Fs} {d : Disk} {node : Fat32Node} {cs cs' l : List ℕ} {c pos : ℕ}
  {e : DirEntry} {data : List UInt8} {h' : Handle} (ht : Target fs d node cs)
  (hw : Wrote fs ⟨node, d⟩ cs pos data h' cs')

include ht hw

/-- The slots of a directory outside the file: the one of its record is patched. -/
theorem Target.dirSlots_eq (hl : ∀ x ∈ l, 2 ≤ x) (hout : ∀ x ∈ l, x ∉ cs') :
    dirSlots fs h'.disk l = (dirSlots fs d l).map (patched fs node h'.disk) := by
  obtain ⟨i, hi⟩ := ht.slot
  rw [dirSlots, dirSlots, List.map_flatMap]
  refine List.flatMap_congr fun x hx => ?_
  rw [slotsOf_eq, slotsOf_eq, List.map_map]
  refine List.map_congr_left fun j _ => ?_
  rw [Function.comp_apply, patched]
  split
  · rfl
  next hne =>
  refine hw.slotIn_eq hi (hl x hx) (hout x hx) ?_
  by_contra hboth
  obtain ⟨hx', hj'⟩ := not_or.1 hboth
  rw [not_not] at hx' hj'
  exact hne ⟨hx', by rw [hi, ← hj']; rfl⟩

/-- The record keeps its name and its attributes. -/
theorem Target.patched_head (he : e ∈ dirSlots fs d l) :
    slice (patched fs node h'.disk e).bytes 0 12 = slice e.bytes 0 12 := by
  rw [patched]
  split
  next hplace =>
    obtain ⟨-, i, -, hoff, hbytes⟩ := mem_dirSlots he
    have hlen : node.dirEntryOffset + 32 ≤ (cluster fs d node.parentCluster).length := by
      rw [length_cluster]
      exact ht.file.offset
    have hrecord : cluster fs h'.disk node.parentCluster =
      patchRecord node h'.node (cluster fs d node.parentCluster) := hw.record
    rw [hbytes, ← hoff, hplace.1, hplace.2]
    show slice (slice (cluster fs h'.disk node.parentCluster) node.dirEntryOffset 32) 0 12 = _
    rw [hrecord, slice_patchRecord_head node h'.node hlen (by decide)]
  next => rfl

omit hw in
/-- A directory has another record. -/
theorem Target.patched_of_dir (he : e ∈ dirSlots fs d l) (hdir : e.isDirectory = true) (d' : Disk) :
    patched fs node d' e = e := by
  refine if_neg fun hplace => ?_
  have hentry := ht.entry
  rw [← hplace.1, ← hplace.2, entryNode_of_mem he] at hentry
  rw [← isDir_nodeOf, hentry, ht.file.file] at hdir
  cases hdir

/-- What becomes of the directories when a file is written. -/
theorem Target.carries (h : WellFormed fs d) :
    Carries fs d h'.disk (patched fs node h'.disk) := by
  refine ⟨hw.fits h.fits, fun {c l} hc hl => ?_⟩
  obtain ⟨hl', hout⟩ := hw.grows.fatChain h.fits.copies hl (ht.dirs c l hc hl)
  refine ⟨l, hl', ?_⟩
  have hhead : ∀ e ∈ dirSlots fs d l,
      slice (patched fs node h'.disk e).bytes 0 12 = slice e.bytes 0 12 :=
    fun e he => ht.patched_head hw he
  rw [ht.dirSlots_eq hw (fun x hx => (hl.mem_in x hx).1) hout]
  refine ⟨fun hlook => ?_, fun he => ?_, fun he => ?_, fun he => ?_, fun he hdir => ?_,
    fun he' => .inl ?_⟩
  · rw [lookup_map hhead, hlook]
    rfl
  · rw [live_map hhead]
    exact List.mem_map_of_mem he
  · exact (DirEntry.congr_head (hhead _ (mem_live he).1)).2.2.1
  · rw [DirEntry.isDot, DirEntry.isDot, (DirEntry.congr_head (hhead _ (mem_live he).1)).2.2.2]
  · exact ht.patched_of_dir (mem_live he).1 hdir h'.disk
  · rw [live_map hhead] at he'
    exact List.mem_map.1 he'

end

/-- Entries at one place are one entry. -/
theorem IsEntry.eq_of_place {fs : Fat32Fs} {d : Disk} {e e₁ : DirEntry} (h₁ : IsEntry live fs d e₁)
    (h : IsEntry live fs d e) (hplace : e₁.cluster = e.cluster ∧ e₁.off = e.off) : e₁ = e := by
  obtain ⟨c, l, -, -, hmem, -⟩ := h
  obtain ⟨c₁, l₁, -, -, hmem₁, -⟩ := h₁
  exact eq_of_mem_dirSlots (mem_live hmem₁).1 (mem_live hmem).1 hplace.1 hplace.2

section
variable {fs : Fat32Fs} {d : Disk} {cs cs' : List ℕ} {pos : ℕ} {e e₁ : DirEntry}
  {data : List UInt8} {h' : Handle} (h : WellFormed fs d) (he : IsEntry live fs d e)
  (hfile : e.isDirectory = false) (hcs : DirChain fs d e.first cs)
  (hw : Wrote fs ⟨nodeOf e, d⟩ cs pos data h' cs') (hlt : h'.node.size < 2 ^ 32)

/-- The entries elsewhere stay as they are. -/
theorem patched_of_place (hplace : ¬ (e₁.cluster = e.cluster ∧ e₁.off = e.off)) (d' : Disk) :
    patched fs (nodeOf e) d' e₁ = e₁ := by
  rw [patched, parentCluster_nodeOf, dirEntryOffset_nodeOf]
  exact if_neg hplace

include h he hfile hcs hw hlt

/-- The record of the file that was written is now that of the node. -/
theorem WellFormed.nodeOf_patched : nodeOf (patched fs (nodeOf e) h'.disk e) = h'.node := by
  have hentry := (h.target he hfile hcs).entry_after h.fits hw hlt
  rw [parentCluster_nodeOf, dirEntryOffset_nodeOf] at hentry
  rw [patched, parentCluster_nodeOf, dirEntryOffset_nodeOf, if_pos ⟨rfl, rfl⟩]
  exact hentry

/-- The volume is well-formed after a write, also after one that failed on the way. -/
theorem WellFormed.wrote (hcover : h'.node.size ≤ cs'.length * fs.clusterSizeBytes) :
    WellFormed fs h'.disk := by
  have ht := h.target he hfile hcs
  have hnode := h.nodeOf_patched he hfile hcs hw hlt
  have hfirst' : (patched fs (nodeOf e) h'.disk e).first = h'.node.firstCluster := by
    rw [← firstCluster_nodeOf, hnode]
  have hother : ∀ e₁, IsEntry live fs d e₁ → e₁ ≠ e → patched fs (nodeOf e) h'.disk e₁ = e₁ := by
    intro e₁ he₁ hne
    exact patched_of_place (fun hplace => hne (he₁.eq_of_place he hplace)) h'.disk
  refine h.carries (ht.carries hw h) hw.grows (o := some e) ⟨he, hcs⟩ ?_ (fun e₁ he₁ hne => ?_)
    fun e₁ l he₁ hfile₁ hl => ?_
  · rw [firstAfter, Option.elim_some, hfirst']
    exact hw.node.chain
  · rw [hother e₁ he₁ fun heq => hne (congrArg some heq)]
  · by_cases heq : e₁ = e
    · subst heq
      rw [hfirst'] at hl
      rw [hnode, hl.unique (hw.fits h.fits) hw.node.chain]
      exact hcover
    · rw [hother e₁ he₁ heq] at hl ⊢
      obtain ⟨l₀, hl₀⟩ := h.chain e₁ he₁
      obtain ⟨hl₁, -⟩ :=
        hw.grows.dirChain h.fits.copies hl₀ (h.apart e₁ e l₀ cs he₁ he heq hl₀ hcs)
      rw [hl.unique (hw.fits h.fits) hl₁]
      exact h.covers e₁ l₀ he₁ hfile₁ hl₀

end

/-- What a write to the file of the entry `e` does to the volume. -/
structure Rewrites (fs : Fat32Fs) (d : Disk) (e : DirEntry) (pos : ℕ) (data : List UInt8)
    (h' : Handle) (f : DirEntry → DirEntry) : Prop where
  wellFormed : WellFormed fs h'.disk
  carries : Carries fs d h'.disk f
  node : nodeOf (f e) = h'.node
  size : h'.node.size = max (pos + data.length) (nodeOf e).size
  file : ∃ old new, (nodeOf e).Reads fs d old ∧ Updated old pos data new ∧
    h'.node.Reads fs h'.disk new
  others : ∀ e₁, IsEntry live fs d e₁ → e₁.isDirectory = false → e₁ ≠ e → f e₁ = e₁ ∧
    ∀ bytes, (nodeOf e₁).Reads fs d bytes → (nodeOf e₁).Reads fs h'.disk bytes

section
variable {fs : Fat32Fs} {d : Disk} {pos n : ℕ} {e : DirEntry} {data : List UInt8} {h' : Handle}
  (h : WellFormed fs d) (he : IsEntry live fs d e) (hfile : e.isDirectory = false)
  (hsize : pos + data.length < 2 ^ 32)

include h he hfile hsize

/-- `write` through the node of an entry. -/
theorem WellFormed.rewrites (hrun : write fs pos data ⟨nodeOf e, d⟩ = .ok n h') :
    ∃ f, Rewrites fs d e pos data h' f := by
  obtain ⟨cs, hcs⟩ := h.chain e he
  have ht := h.target he hfile hcs
  obtain ⟨hdata, -⟩ := of_write hrun
  have hsat := write_sat (h := ⟨nodeOf e, d⟩) h.fits ht.file hdata hsize
  rw [hrun] at hsat
  obtain ⟨-, cs', hw, hsize', hcover, -⟩ := Exec.sat_ok.1 hsat
  have hcover' := hw.covers ht.covers hcover hsize'
  have hlt : h'.node.size < 2 ^ 32 := by
    rw [hsize']
    exact Nat.max_lt.2 ⟨hsize, ht.size_lt⟩
  refine ⟨_, h.wrote he hfile hcs hw hlt hcover', ht.carries hw h,
    h.nodeOf_patched he hfile hcs hw hlt, hsize', ⟨_, _, ht.file.reads h.fits ht.covers,
      hw.updated ht.covers hcover hsize', hw.node.reads (hw.fits h.fits) hcover'⟩,
    fun e₁ he₁ hfile₁ hne => ?_⟩
  have hplace := fun hplace => hne (he₁.eq_of_place he hplace)
  refine ⟨patched_of_place hplace h'.disk, fun bytes hreads => ?_⟩
  obtain ⟨bytes', hbefore, hafter, -⟩ := ht.others h hw e₁ he₁ hfile₁
    (by rwa [parentCluster_nodeOf, dirEntryOffset_nodeOf])
  rwa [hreads.unique hbefore]

/-- A write that needs no new cluster succeeds. -/
theorem WellFormed.write_ok {cs : List ℕ} (hcs : DirChain fs d e.first cs) (hdata : data ≠ [])
    (hcover : pos + data.length ≤ cs.length * fs.clusterSizeBytes) :
    ∃ h', write fs pos data ⟨nodeOf e, d⟩ = .ok data.length h' := by
  have hsat := write_sat (h := ⟨nodeOf e, d⟩) h.fits (h.target he hfile hcs).file hdata hsize
  cases hrun : write fs pos data ⟨nodeOf e, d⟩ with
  | ok n h' =>
    rw [hrun] at hsat
    obtain ⟨rfl, -⟩ := Exec.sat_ok.1 hsat
    exact ⟨h', rfl⟩
  | error err h' =>
    rw [hrun] at hsat
    obtain ⟨-, cs', m, hw, -, -, hlen⟩ := Exec.sat_error.1 hsat
    exact absurd (hw.grows.covers hcover) (Nat.not_le.2 hlen)

end

/-! ## `create` -/

/-- A directory in which nothing changed. -/
theorem CarriesDir.refl (l : List DirEntry) : CarriesDir id l l :=
  ⟨id, id, fun _ => rfl, fun _ => rfl, fun _ _ => rfl, fun he => .inl ⟨_, he, rfl⟩⟩

section
variable {fs : Fat32Fs} {d d' d₁ : Disk} {dir n : Fat32Node} {cs l : List ℕ} {p off : ℕ}
  {name : String} {raw : List UInt8} {e : DirEntry} (h : WellFormed fs d)
  (hdir : IsDir live fs d dir.firstCluster) (hcs : FatChain fs d dir.firstCluster cs)
  (hcreated : Created fs d dir cs name n d' raw p off d₁)

include h hcs hcreated

/-- The directory of the new entry. -/
theorem Created.carriesDir (hkeep : KeepsAll fs d cs raw) : ∃ cs', Grows fs 0 d cs d' cs' ∧
    FatChain fs d' dir.firstCluster cs' ∧
    CarriesDir id (dirSlots fs d cs) (dirSlots fs d' cs') ∧
    (Plain name → lookup (dirSlots fs d' cs') name = some ⟨newRecord raw, p, off⟩) := by
  have hraw := length_to83 hcreated.name83
  obtain ⟨cs', hgrows, hcs', -⟩ := hcreated.grows h.fits hcs
  obtain ⟨m, pre, post, hread, hlive, hlive', hhidden⟩ :=
    (hcreated.shows h.fits (.inr hcs)).inserted hraw hkeep
  obtain rfl := hread.chain.unique hread.fits (.inr hcs')
  refine ⟨m, hgrows, hcs', ⟨fun hlook => ?_, fun he => ?_, fun _ => rfl, fun _ => rfl,
    fun _ _ => rfl, fun he' => ?_⟩, fun hplain => ?_⟩
  · exact lookup_of_inserted hlive hlive' rfl hhidden hlook
  · rw [hlive] at he
    rw [hlive']
    exact (List.mem_append.1 he).elim (List.mem_append_left _)
      fun he => List.mem_append_right _ (List.mem_cons_of_mem _ he)
  · rw [hlive'] at he'
    rw [hlive]
    rcases List.mem_append.1 he' with he' | he'
    · exact .inl ⟨_, List.mem_append_left _ he', rfl⟩
    · rcases List.mem_cons.1 he' with rfl | he'
      · exact .inr (nodeOf_newRecord p off hraw)
      · exact .inl ⟨_, List.mem_append_right _ he', rfl⟩
  · -- no entry before it has the name, or `create` would have failed
    have hnone := hcreated.noDup
    rw [lookup, hlive, List.find?_append, Option.or_eq_none_iff] at hnone
    rw [lookup, hlive', List.find?_append, hnone.1, Option.none_or]
    exact List.find?_cons_of_pos (p := fun e : DirEntry => nameMatches e.bytes name)
      ((nameMatches_newRecord_iff hcreated.name83).2 hplain)

include hdir

/-- What becomes of the directories when a file is created and hides nothing: all entries stay. -/
theorem Created.carries (hkeep : KeepsAll fs d cs raw) : Carries fs d d' id := by
  obtain ⟨cs', -, hcs', hslots, -⟩ := hcreated.carriesDir h hcs hkeep
  refine ⟨?_, fun {c l} hc hl => ?_⟩
  · rw [hcreated.disk_eq, setCluster_capacity, (hcreated.placed.inRange (.inr hcs)).2.2]
    exact h.fits
  by_cases heq : c = dir.firstCluster
  · subst heq
    obtain rfl := hl.unique h.fits hcs
    exact ⟨cs', hcs', hslots⟩
  · obtain ⟨hl', hsame⟩ := hcreated.dirSlots_eq h (.inr hdir) (.inr hcs) hc heq hl
    refine ⟨l, hl', ?_⟩
    rw [hsame]
    exact .refl _

/-- The chain of a file is as before, and so are its bytes. -/
theorem Created.file (he : IsEntry live fs d e) (hfile : e.isDirectory = false)
    (hl : DirChain fs d e.first l) :
    DirChain fs d' e.first l ∧ clusters fs d' l = clusters fs d l := by
  rcases hl with ⟨hlt, rfl⟩ | hl
  · exact ⟨.inl ⟨hlt, rfl⟩, rfl⟩
  · have hapart : ∀ x ∈ l, x ∉ cs := fun x hx hx' =>
      h.apart_of_file hdir hcs he hfile (.inr hl) x hx' hx
    have hframe : ∀ x ∈ l, x ≠ p ∧ next fs d' x = next fs d x ∧
        cluster fs d' x = cluster fs d x :=
      fun x hx => hcreated.frame h.fits (.inr hcs) (hl.mem_in x hx) (hl.next_ne_zero hx)
        (hapart x hx)
    exact ⟨.inr (hl.of_next_eq fun x hx => (hframe x hx).2.1),
      clusters_congr fun x hx => (hframe x hx).2.2⟩

/-- The volume is well-formed after a file was created. -/
theorem WellFormed.created (hkeep : KeepsAll fs d cs raw) : WellFormed fs d' := by
  obtain ⟨cs', hgrows, hcs', -⟩ := hcreated.carriesDir h hcs hkeep
  have hcarries := hcreated.carries h hdir hcs hkeep
  obtain ⟨o, howns, hfirst⟩ : ∃ o, Owns fs d cs o ∧ firstAfter fs id o = dir.firstCluster := by
    rcases hdir.eq_or_entry with heq | ⟨e, he, -, -, heq⟩
    · refine ⟨none, ?_, heq.symm⟩
      rw [Owns, ← heq]
      exact hcs
    · refine ⟨some e, ⟨he, ?_⟩, heq.symm⟩
      rw [← heq]
      exact .inr hcs
  refine h.carries hcarries hgrows howns ?_ (fun _ _ _ => rfl) fun e l he hfile hl => ?_
  · rw [hfirst]
    exact .inr hcs'
  · obtain ⟨l₀, hl₀⟩ := h.chain e he
    obtain ⟨hl₁, -⟩ := hcreated.file h hdir hcs he hfile hl₀
    obtain rfl := hl.unique hcarries.fits hl₁
    exact h.covers e l he hfile hl₀

/-- The other files read as before. -/
theorem Created.reads (hkeep : KeepsAll fs d cs raw) (he : IsEntry live fs d e)
    (hfile : e.isDirectory = false) {bytes : List UInt8} (hreads : (nodeOf e).Reads fs d bytes) :
    (nodeOf e).Reads fs d' bytes := by
  have h' := h.created hdir hcs hcreated hkeep
  have hcarries := hcreated.carries h hdir hcs hkeep
  obtain ⟨l, hl⟩ := h.chain e he
  obtain ⟨hl', hsame⟩ := hcreated.file h hdir hcs he hfile hl
  have ht := h.target he hfile hl
  have ht' := h'.target (hcarries.isEntry he) hfile hl'
  obtain rfl := hreads.unique (ht.file.reads h.fits ht.covers)
  rw [← hsame]
  exact ht'.file.reads h'.fits ht'.covers

/-- The new entry was not there before. -/
theorem Created.ne_of_isEntry (hplain : Plain name) (he : IsEntry live fs d e) :
    e ≠ ⟨newRecord raw, p, off⟩ := by
  rintro rfl
  obtain ⟨c, l, hc, hl, hmem, -⟩ := he
  by_cases heq : c = dir.firstCluster
  · -- `create` would have found it
    subst heq
    obtain rfl := hl.unique h.fits hcs
    exact List.find?_eq_none.1 hcreated.noDup _ hmem
      ((nameMatches_newRecord_iff hcreated.name83).2 hplain)
  · have hp : p ∈ l := (mem_dirSlots (mem_live hmem).1).1
    have hout := h.apart_of_dirs hc hdir heq hl hcs p hp
    exact (hcreated.frame h.fits (.inr hcs) (hl.mem_in p hp) (hl.next_ne_zero hp) hout).1 rfl

end

end Fat

end RossOs
