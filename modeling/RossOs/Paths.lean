import RossOs.Vfs

/-!
# Paths by their components

`open` in `ross-kernel/src/vfs.rs` over any nodes. Which file system a path is looked up in is
decided by a prefix of the string, the rest by its components. `resolve` says what a path names by
its components alone, and `pathLaw_iff` for which spellings of a path `open` agrees with it.
-/

namespace RossOs

/-! ## Components -/

/-- The empty path has no components. -/
theorem components_nil : components [] = [] := rfl

/-- A slash ends the component before it. -/
theorem components_append_slash (p q : List Char) :
    components (p ++ '/' :: q) = components p ++ components q := by
  rw [components, List.splitOn_append_cons_self, List.filter_append, List.map_append]
  rfl

/-- A leading slash does not matter. -/
theorem components_slash (q : List Char) : components ('/' :: q) = components q :=
  components_append_slash [] q

/-- A word is one component. -/
theorem components_word {w : List Char} (hw : '/' ∉ w) (hne : w ≠ []) :
    components w = [String.ofList w] := by
  rw [components, List.splitOn_eq_singleton hw, List.filter_singleton]
  simp [hne]

/-- No component is empty. -/
theorem ne_empty_of_mem_components {p : List Char} {name : String} (h : name ∈ components p) :
    name.toList ≠ [] := by
  obtain ⟨w, hw, rfl⟩ := List.mem_map.1 h
  rw [String.toList_ofList]
  simpa using (List.mem_filter.1 hw).2

/-- The slashes around a path do not matter. -/
theorem components_trimSlashes (p : List Char) : components (trimSlashes p) = components p := by
  induction p with
  | nil => rfl
  | cons c p ih =>
    rw [trimSlashes, List.dropWhile_cons]
    split
    case isTrue h =>
      obtain rfl : c = '/' := by simpa using h
      rw [components_slash]
      exact ih
    case isFalse h => rfl

/-- The path is over, or a slash comes next. -/
def EndsWord (p : List Char) : Prop := ∀ c ∈ p.head?, c = '/'

instance : DecidablePred EndsWord := fun p =>
  decidable_of_iff (p.head?.all (· == '/') = true) (by simp [EndsWord, Option.all_eq_true])

/-- The first component of a path that does not begin with a slash. -/
theorem components_word_append {w p : List Char} (hw : '/' ∉ w) (hne : w ≠ []) (hp : EndsWord p) :
    components (w ++ p) = String.ofList w :: components p := by
  cases p with
  | nil => rw [List.append_nil, components_word hw hne, components_nil]
  | cons c p =>
    obtain rfl : c = '/' := hp c rfl
    rw [components_append_slash, components_word hw hne, components_slash, List.singleton_append]

/-- A path that does not begin with a slash is a word and what follows it. -/
theorem exists_word (p : List Char) : ∃ w q, p = w ++ q ∧ '/' ∉ w ∧ EndsWord q := by
  refine ⟨p.takeWhile (· ≠ '/'), p.dropWhile (· ≠ '/'), List.takeWhile_append_dropWhile.symm,
    ?_, ?_⟩
  · intro hmem
    simpa using List.mem_takeWhile_imp hmem
  · intro c hc
    have := List.head?_dropWhile_not (· ≠ '/') p
    rw [Option.mem_def.1 hc] at this
    simpa using this

/-- Leading slashes are trimmed. -/
theorem trimSlashes_slashes (n : ℕ) (p : List Char) :
    trimSlashes (List.replicate n '/' ++ p) = trimSlashes p := by
  induction n with
  | zero => rfl
  | succ n ih => exact ih

/-- A path is slashes and the rest. -/
theorem exists_slashes (p : List Char) : ∃ n, p = List.replicate n '/' ++ trimSlashes p := by
  refine ⟨(p.takeWhile (· = '/')).length, ?_⟩
  have hall : p.takeWhile (· = '/') = List.replicate (p.takeWhile (· = '/')).length '/' :=
    List.eq_replicate_iff.2 ⟨rfl, fun c hc => by simpa using List.mem_takeWhile_imp hc⟩
  rw [← hall, trimSlashes, List.takeWhile_append_dropWhile]

/-- A trimmed path starts with no slash. -/
theorem head?_trimSlashes (p : List Char) : (trimSlashes p).head? ≠ some '/' := by
  intro h
  have := List.head?_dropWhile_not (· = '/') p
  rw [← trimSlashes, h] at this
  simp at this

/-- The first component of a path, after the slashes it begins with. -/
theorem exists_of_components_eq_cons {p : List Char} {name : String} {names : List String}
    (h : components p = name :: names) :
    ∃ q, trimSlashes p = name.toList ++ q ∧ EndsWord q ∧ components q = names := by
  obtain ⟨w, q, hp, hw, hq⟩ := exists_word (trimSlashes p)
  rcases eq_or_ne w [] with rfl | hne
  · -- no word: the path has only slashes
    cases q with
    | nil =>
      rw [← components_trimSlashes, hp] at h
      cases h
    | cons c q =>
      obtain rfl : c = '/' := hq c rfl
      exact absurd (by rw [hp]; rfl) (head?_trimSlashes p)
  · rw [← components_trimSlashes, hp, components_word_append hw hne hq] at h
    obtain ⟨rfl, rfl⟩ := List.cons_eq_cons.1 h
    exact ⟨q, by rw [hp, String.toList_ofList], hq, rfl⟩

/-! ## What a path names -/

section
variable {N σ : Type} (finddir : N → String → Exec Unit σ N) (rootNode diskRoot : Option N)

/-- The components looked up one by one from a root, if it is there. -/
def descend (root : Option N) (names : List String) : Exec Unit σ N :=
  match root with
  | none => Exec.fail ()
  | some node => names.foldlM finddir node

/-- `open`, for any `dyn VfsNode`. -/
def openIn (path : List Char) : Exec Unit σ N :=
  let trimmed := trimSlashes path
  if diskPrefix.isPrefixOf trimmed then
    descend finddir diskRoot (components (trimSlashes (trimmed.drop diskPrefix.length)))
  else descend finddir rootNode (components trimmed)

/-- What the components of a path name: those after `mnt` and `disk` on the disk, all others in the
root file system. -/
def resolve (names : List String) : Exec Unit σ N :=
  if names.take 2 = ["mnt", "disk"] then descend finddir diskRoot (names.drop 2)
  else descend finddir rootNode names

end

/-- `open` walks from the root of the tree or of the drive. -/
theorem openPath_eq_openIn (vfs : VfsRoot) (fuel : ℕ) (path : List Char) :
    vfs.openPath fuel path =
      openIn (fun node name => node.finddir fuel name) vfs.rootNode vfs.diskRoot path := by
  rw [VfsRoot.openPath, openIn]
  cases vfs.rootNode <;> cases vfs.diskRoot <;> rfl

/-- The two paths are looked up alike, and as their components say, whatever is mounted. -/
structure PathLaw (p q : List Char) : Prop where
  same : ∀ {N σ : Type} (finddir : N → String → Exec Unit σ N) (rootNode diskRoot : Option N),
    openIn finddir rootNode diskRoot p = openIn finddir rootNode diskRoot q
  resolved : ∀ path ∈ [p, q], ∀ {N σ : Type} (finddir : N → String → Exec Unit σ N)
    (rootNode diskRoot : Option N), openIn finddir rootNode diskRoot path =
      resolve finddir rootNode diskRoot (components path)

/-- A path whose string shows whether it is on the disk: no other name begins with `mnt/disk`, and
between `mnt` and `disk` is one slash. -/
def Canonical (path : List Char) : Prop :=
  (diskPrefix <+: trimSlashes path → EndsWord ((trimSlashes path).drop 8)) ∧
  (['m', 'n', 't', '/', '/'] <+: trimSlashes path →
    ['d', 'i', 's', 'k'] <+: trimSlashes ((trimSlashes path).drop 3) →
    ¬ EndsWord ((trimSlashes ((trimSlashes path).drop 3)).drop 4))

instance : DecidablePred Canonical := fun path =>
  inferInstanceAs (Decidable (
    (diskPrefix <+: trimSlashes path → EndsWord ((trimSlashes path).drop 8)) ∧
    (['m', 'n', 't', '/', '/'] <+: trimSlashes path →
      ['d', 'i', 's', 'k'] <+: trimSlashes ((trimSlashes path).drop 3) →
      ¬ EndsWord ((trimSlashes ((trimSlashes path).drop 3)).drop 4))))

section
variable {path p q : List Char}

/-- The components of a path below `mnt/disk`. -/
theorem components_mnt_disk {n : ℕ} {r : List Char} (hr : EndsWord r)
    (hp : trimSlashes path =
      ['m', 'n', 't'] ++ (List.replicate (n + 1) '/' ++ (['d', 'i', 's', 'k'] ++ r))) :
    components path = "mnt" :: "disk" :: components r := by
  have hdisk : components (List.replicate (n + 1) '/' ++ (['d', 'i', 's', 'k'] ++ r)) =
      "disk" :: components r := by
    rw [← components_trimSlashes, trimSlashes_slashes]
    exact components_word_append (w := ['d', 'i', 's', 'k']) (by decide) (by decide) hr
  have hend : EndsWord (List.replicate (n + 1) '/' ++ (['d', 'i', 's', 'k'] ++ r)) := by
    rintro c ⟨⟩
    rfl
  rw [← components_trimSlashes, hp, components_word_append (by decide) (by decide) hend, hdisk]

/-- The paths whose first components are `mnt` and `disk`. -/
theorem take_two_iff : (components path).take 2 = ["mnt", "disk"] ↔ ∃ n r,
    trimSlashes path =
      ['m', 'n', 't'] ++ (List.replicate (n + 1) '/' ++ (['d', 'i', 's', 'k'] ++ r)) ∧
      EndsWord r := by
  constructor
  · intro h
    have hnames : components path = "mnt" :: "disk" :: (components path).drop 2 := by
      conv_lhs => rw [← List.take_append_drop 2 (components path), h]
      rfl
    obtain ⟨p₁, hp₁, hend, hnames⟩ := exists_of_components_eq_cons hnames
    obtain ⟨r, hr, hr', -⟩ := exists_of_components_eq_cons hnames
    obtain ⟨n, hn⟩ := exists_slashes p₁
    rw [hr] at hn
    cases n with
    | zero =>
      rw [hn] at hend
      exact absurd (hend 'd' rfl) (by decide)
    | succ n => exact ⟨n, r, by rw [hp₁, hn]; rfl, hr'⟩
  · rintro ⟨n, r, hp, hr⟩
    rw [components_mnt_disk hr hp]
    rfl

/-- The test for the prefix of the disk decides whether it is one. -/
theorem diskPrefix_isPrefixOf : diskPrefix.isPrefixOf p = true ↔ diskPrefix <+: p :=
  List.isPrefixOf_iff_prefix

/-- The string of a canonical path begins with `mnt/disk` just when its components do. -/
theorem canonical_iff :
    Canonical path ↔ (diskPrefix <+: trimSlashes path ↔
      (components path).take 2 = ["mnt", "disk"]) := by
  constructor
  · rintro ⟨hword, hslash⟩
    constructor
    · intro hpre
      obtain ⟨r, hr⟩ := hpre
      have hend := hword ⟨r, hr⟩
      rw [← hr] at hend
      exact take_two_iff.2 ⟨0, r, hr.symm, hend⟩
    · intro h
      obtain ⟨n, r, hp, hend⟩ := take_two_iff.1 h
      cases n with
      | zero => exact ⟨r, hp.symm⟩
      | succ n =>
        have hdrop : trimSlashes ((trimSlashes path).drop 3) = ['d', 'i', 's', 'k'] ++ r := by
          rw [hp]
          exact trimSlashes_slashes _ _
        rw [hdrop] at hslash
        refine absurd hend (hslash ⟨?_, ?_⟩ (List.prefix_append _ r))
        · exact List.replicate n '/' ++ (['d', 'i', 's', 'k'] ++ r)
        · rw [hp]
          rfl
  · intro h
    constructor
    · rintro ⟨r₀, hr₀⟩
      obtain ⟨n, r, hp, hend⟩ := take_two_iff.1 (h.1 ⟨r₀, hr₀⟩)
      rw [← hr₀] at hp ⊢
      cases n with
      | zero =>
        obtain rfl : r₀ = r :=
          List.append_cancel_left (show diskPrefix ++ r₀ = diskPrefix ++ r from hp)
        exact hend
      | succ n => exact absurd (congrArg (·[4]?) hp) (by simp [diskPrefix, List.replicate_succ])
    · rintro ⟨r₀, hr₀⟩ ⟨r, hr⟩ hend
      obtain ⟨n, hn⟩ := exists_slashes ((trimSlashes path).drop 3)
      rw [← hr] at hend hn
      have hp : trimSlashes path =
          ['m', 'n', 't'] ++ (List.replicate n '/' ++ (['d', 'i', 's', 'k'] ++ r)) := by
        rw [← hn, ← hr₀]
        rfl
      cases n with
      | zero => exact absurd (congrArg (·[3]?) (hr₀.trans hp)) (by simp)
      | succ n =>
        obtain ⟨r₁, hr₁⟩ := h.2 (take_two_iff.2 ⟨n, r, hp, hend⟩)
        exact absurd (congrArg (·[4]?) (hr₀.trans hr₁.symm)) (by simp [diskPrefix])

/-- A path that begins with `mnt/disk` has more than one component. -/
theorem two_le_components (h : diskPrefix <+: trimSlashes path) :
    2 ≤ (components path).length := by
  obtain ⟨r, hr⟩ := h
  obtain ⟨w, q, hp, hw, hq⟩ := exists_word (['d', 'i', 's', 'k'] ++ r)
  have hne : w ≠ [] := by
    rintro rfl
    rw [← hp.trans (List.nil_append q)] at hq
    exact absurd (hq 'd' rfl) (by decide)
  have hcomp : components path = "mnt" :: String.ofList w :: components q := by
    rw [← components_trimSlashes, ← hr, ← components_word_append hw hne hq, ← hp]
    exact components_append_slash ['m', 'n', 't'] (['d', 'i', 's', 'k'] ++ r)
  rw [hcomp, List.length_cons, List.length_cons]
  omega

/-- A path is looked up as its components say just when it is canonical. -/
theorem openIn_eq_resolve_iff :
    (∀ {N σ : Type} (finddir : N → String → Exec Unit σ N) (rootNode diskRoot : Option N),
      openIn finddir rootNode diskRoot path =
        resolve finddir rootNode diskRoot (components path)) ↔ Canonical path := by
  rw [canonical_iff]
  constructor
  · intro h
    -- nodes that only remember the root they come from
    have hfrom := congrFun (h (fun (b : Bool) _ => (pure b : Exec Unit Unit Bool)) (some false)
      (some true)) ()
    have hdescend : ∀ (b : Bool) (names : List String),
        descend (fun (b : Bool) _ => (pure b : Exec Unit Unit Bool)) (some b) names () =
          .ok b () := by
      intro b names
      induction names with
      | nil => rfl
      | cons name names ih => exact ih
    simp only [openIn, resolve, diskPrefix_isPrefixOf] at hfrom
    split at hfrom <;> split at hfrom <;> simp_all
  · intro h N σ finddir rootNode diskRoot
    simp only [openIn, resolve, diskPrefix_isPrefixOf, h]
    split
    case isTrue htake =>
      obtain ⟨r, hr⟩ := h.2 htake
      have hend := (canonical_iff.2 h).1 ⟨r, hr⟩
      rw [← hr] at hend
      rw [components_mnt_disk (n := 0) hend hr.symm, components_trimSlashes, ← hr]
      rfl
    case isFalse htake => rw [components_trimSlashes]

/-- Two spellings of a path are looked up alike, each as its components say, just when both are
canonical. -/
theorem pathLaw_iff (h : components p = components q) :
    PathLaw p q ↔ Canonical p ∧ Canonical q := by
  constructor
  · intro hlaw
    exact ⟨openIn_eq_resolve_iff.1 (hlaw.resolved p (by simp)),
      openIn_eq_resolve_iff.1 (hlaw.resolved q (by simp))⟩
  · rintro ⟨hp, hq⟩
    refine ⟨fun finddir rootNode diskRoot => ?_, fun path hpath => ?_⟩
    · rw [openIn_eq_resolve_iff.2 hp, openIn_eq_resolve_iff.2 hq, h]
    · rcases List.mem_pair.1 hpath with rfl | rfl
      · exact openIn_eq_resolve_iff.2 hp
      · exact openIn_eq_resolve_iff.2 hq

end

/-- More slashes before the path, after `disk` and at the end do no harm. -/
theorem pathLaw_slashes : PathLaw "//mnt/disk//a/".toList "mnt/disk/a".toList :=
  (pathLaw_iff (by decide)).2 (by decide)

/-- With another slash between `mnt` and `disk` the disk is not found. -/
theorem pathLaw_fails : components "mnt/disk".toList = components "mnt//disk".toList ∧
    ¬ PathLaw "mnt/disk".toList "mnt//disk".toList := by
  refine ⟨by decide, fun hlaw => ?_⟩
  -- the first path is the root of the disk, the second one is looked for in an empty ram disk
  have hsame := congrFun (hlaw.same (fun node name => Node.finddir 0 name node)
    (some (.tarFileSystem [])) (some (.tarFileSystem [⟨"a", []⟩]))) emptyDisk
  have hdisk : openIn (fun node name => Node.finddir 0 name node) (some (.tarFileSystem []))
      (some (.tarFileSystem [⟨"a", []⟩])) "mnt/disk".toList emptyDisk =
      .ok (.tarFileSystem [⟨"a", []⟩]) emptyDisk := rfl
  have hroot : openIn (fun node name => Node.finddir 0 name node) (some (.tarFileSystem []))
      (some (.tarFileSystem [⟨"a", []⟩])) "mnt//disk".toList emptyDisk =
      .error (.err ()) emptyDisk := rfl
  rw [hdisk, hroot] at hsame
  cases hsame

/-! ## Paths on the disk -/

/-- What is behind a path is not trimmed. -/
theorem trimSlashes_append {p : List Char} (hp : trimSlashes p ≠ []) (q : List Char) :
    trimSlashes (p ++ q) = trimSlashes p ++ q := by
  rw [trimSlashes, List.dropWhile_append, ← trimSlashes, List.isEmpty_eq_false_iff.2 hp]
  rfl

/-- A path on the disk is looked up from the root of the disk. -/
theorem openPath_of_disk {p : List Char} (hp : diskPrefix <+: trimSlashes p) (vfs : VfsRoot)
    (fuel : ℕ) : vfs.openPath fuel p = lookupFrom fuel vfs.diskRoot ((trimSlashes p).drop 8) := by
  have hcomponents : ∀ q, lookupFrom fuel vfs.diskRoot (trimSlashes q) =
      lookupFrom fuel vfs.diskRoot q := by
    intro q
    unfold lookupFrom
    rw [components_trimSlashes]
  rw [VfsRoot.openPath, if_pos (diskPrefix_isPrefixOf.2 hp)]
  exact hcomponents _

/-- A longer path on the disk goes on from where the shorter one leads. -/
theorem openPath_append {p : List Char} (hp : diskPrefix <+: trimSlashes p) (vfs : VfsRoot)
    (fuel : ℕ) (q : List Char) : vfs.openPath fuel (p ++ '/' :: q) =
      vfs.openPath fuel p >>= (components q).foldlM fun node name => node.finddir fuel name := by
  obtain ⟨r, hr⟩ := hp
  have hne : trimSlashes p ≠ [] := by
    rw [← hr]
    exact List.cons_ne_nil _ _
  have hdrop : (trimSlashes p).drop 8 = r := by
    rw [← hr]
    rfl
  have happ : trimSlashes (p ++ '/' :: q) = diskPrefix ++ (r ++ '/' :: q) := by
    rw [trimSlashes_append hne, ← hr, List.append_assoc]
  rw [openPath_of_disk ⟨r, hr⟩, openPath_of_disk ⟨_, happ.symm⟩, happ, hdrop]
  show lookupFrom fuel vfs.diskRoot (r ++ '/' :: q) = _
  unfold lookupFrom
  cases vfs.diskRoot with
  | none => rfl
  | some node =>
    rw [components_append_slash]
    exact List.foldlM_append

end RossOs
