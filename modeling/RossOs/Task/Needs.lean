import RossOs.Task.Trace

/-!
# What the memory calls need

Which request for a frame finds the allocator empty decides how a call ends: one for a page is
reported to the caller, one for a page table is followed by `expect`. So a call is described by the
list of its needs in order, frames for pages and for tables and the checks in between, and `fate`
reads off that list how the call ends with `n` frames. Which tables a page needs depends on those
there already, the `Footprint` of the address space.

`Meets` says that a run ends as its needs say. The needs end where a page is to be mapped at an
address that leads through the kernel's own entries (`Reserved`): what the code does there depends
on the memory behind them.
-/

namespace RossOs

open ByteMem Paging Elf Exec

/-! ## Needs -/

/-- A step of a call that may end it. -/
inductive Need where
  /-- The call uses the page at `v`. -/
  | visit (v : ℕ)
  /-- A frame for a page. -/
  | page
  /-- A frame for a page table. -/
  | table
  /-- The call is refused. -/
  | refuse
  /-- The call leaves the file, or a sum overflows. -/
  | stray
  /-- An address is not aligned. -/
  | halt
deriving DecidableEq, Repr

/-- How a call ends. -/
inductive Fate where
  /-- It does what it is asked to. -/
  | done
  /-- It reports an error. -/
  | refused
  /-- It stops at an `expect` for want of a frame. -/
  | dead
  /-- It reads outside the file, or stops at an overflow. -/
  | strays
  /-- It stops at an address that is not aligned. -/
  | halted
  /-- It gets to an address that is the kernel's. -/
  | wild
deriving DecidableEq, Repr

/-- How a call with these needs ends when there are `n` frames. -/
def fate : ℕ → List Need → Fate
  | _, [] => .done
  | n, .visit v :: l => if Reserved v then .wild else fate n l
  | 0, .page :: _ => .refused
  | n + 1, .page :: l => fate n l
  | 0, .table :: _ => .dead
  | n + 1, .table :: l => fate n l
  | _, .refuse :: _ => .refused
  | _, .stray :: _ => .strays
  | _, .halt :: _ => .halted

/-- How many frames the needs take when all are met. -/
def Need.frames : List Need → ℕ
  | [] => 0
  | .page :: l => frames l + 1
  | .table :: l => frames l + 1
  | .visit _ :: l => frames l
  | .refuse :: l => frames l
  | .stray :: l => frames l
  | .halt :: l => frames l

/-- The frames of two lists of needs add up. -/
theorem frames_append (l l' : List Need) :
    Need.frames (l ++ l') = Need.frames l + Need.frames l' := by
  induction l with
  | nil => exact (Nat.zero_add _).symm
  | cons a l ih =>
    cases a <;> simp only [List.cons_append, Need.frames, ih] <;> omega

/-- Needs that follow others are met with the frames that those leave. -/
theorem fate_append (n : ℕ) (l l' : List Need) : fate n (l ++ l') =
    if fate n l = .done then fate (n - Need.frames l) l' else fate n l := by
  induction l generalizing n with
  | nil => rfl
  | cons a l ih =>
    cases a with
    | visit v =>
      rw [List.cons_append, fate, fate]
      split
      · rfl
      · rw [ih, Need.frames]
    | page | table =>
      cases n with
      | zero => rfl
      | succ n =>
        rw [List.cons_append, fate, fate, ih, Need.frames, Nat.add_sub_add_right]
    | refuse | stray | halt => rfl

/-- A call leaves the file or halts only where its needs say so. -/
theorem mem_of_fate {n : ℕ} {l : List Need} :
    (fate n l = .strays → .stray ∈ l) ∧ (fate n l = .halted → .halt ∈ l) := by
  induction l generalizing n with
  | nil => simp [fate]
  | cons a l ih =>
    have hrest : ∀ {k}, (fate k l = .strays → .stray ∈ a :: l) ∧
        (fate k l = .halted → .halt ∈ a :: l) := fun {k} =>
      ⟨fun h => List.mem_cons_of_mem _ (ih.1 h), fun h => List.mem_cons_of_mem _ (ih.2 h)⟩
    cases a with
    | visit v =>
      rw [fate]
      split
      · simp
      · exact hrest
    | page | table =>
      cases n with
      | zero => simp [fate]
      | succ n => exact hrest
    | refuse | stray | halt => simp [fate]

/-- With frames enough, a call that is not refused and does not halt is done unless it strays. -/
theorem fate_of_frames {n : ℕ} {l : List Need} (hrefuse : .refuse ∉ l) (hhalt : .halt ∉ l)
    (hn : Need.frames l ≤ n) (hw : fate n l ≠ .wild) :
    fate n l = if .stray ∈ l then .strays else .done := by
  induction l generalizing n with
  | nil => rfl
  | cons a l ih =>
    have hrefuse' : .refuse ∉ l := fun hl => hrefuse (List.mem_cons_of_mem _ hl)
    have hhalt' : .halt ∉ l := fun hl => hhalt (List.mem_cons_of_mem _ hl)
    cases a with
    | visit v =>
      rw [fate] at hw ⊢
      split at hw
      · exact absurd rfl hw
      case isFalse hv =>
        rw [if_neg hv, ih hrefuse' hhalt' hn hw]
        simp
    | page | table =>
      cases n with
      | zero => exact absurd hn (Nat.not_succ_le_zero _)
      | succ n =>
        rw [fate] at hw ⊢
        rw [ih hrefuse' hhalt' (Nat.succ_le_succ_iff.1 hn) hw]
        simp
    | refuse => exact absurd List.mem_cons_self hrefuse
    | halt => exact absurd List.mem_cons_self hhalt
    | stray => simp [fate]

/-! ## Footprints -/

/-- The entries of an address space that are there, by their paths: one to three indices for a
table, four for a page. -/
abbrev Footprint := List ℕ → Bool

/-- The paths of the tables on the way to a page. -/
def tablePaths (v : ℕ) : List (List ℕ) :=
  [[index 39 v], [index 39 v, index 30 v], [index 39 v, index 30 v, index 21 v]]

/-- The footprint of the address space in a memory. -/
def pathAt (m : Mem) : (table : ℕ) → Footprint
  | _, [] => true
  | table, i :: q => word m table i != 0 && pathAt m (frameOf (word m table i)) q

/-- The footprint of a fresh address space. -/
def freshFootprint : Footprint := fun q => q ∈ [[0], [0, 0], [0, 1], [0, 2], [0, 3]]

namespace Footprint

/-- The footprint with a page more. -/
def map (F : Footprint) (v : ℕ) : Footprint := fun q => F q || q ∈ tablePaths v || q == pagePath v

/-- The tables that `map_user_page` creates for a page. -/
def tableNeeds (F : Footprint) (v : ℕ) : List Need :=
  (tablePaths v).flatMap fun q => if F q then [] else [.table]

/-- Pages that get a frame each and are mapped one after the other. -/
def growNeeds : Footprint → List ℕ → List Need
  | _, [] => []
  | F, v :: vs => .page :: .visit v :: (F.tableNeeds v ++ growNeeds (F.map v) vs)

/-- The footprint is that of the space, at the addresses that are not reserved. -/
structure Fits (F : Footprint) (A : Space) : Prop where
  table : ∀ {v : ℕ} {q : List ℕ}, ¬ Reserved v → q ∈ tablePaths v → F q = (A.table q).isSome
  page : ∀ {v : ℕ}, ¬ Reserved v → F (pagePath v) = decide (A.leaf (pagePath v) ≠ 0)

/-- The path of a table is shorter than that of a page. -/
theorem length_of_mem_tablePaths {v : ℕ} {q : List ℕ} (h : q ∈ tablePaths v) : q.length < 4 := by
  simp only [tablePaths, List.mem_cons, List.not_mem_nil, or_false] at h
  rcases h with rfl | rfl | rfl <;> simp

/-- So no table is a page. -/
theorem pagePath_ne {v w : ℕ} {q : List ℕ} (h : q ∈ tablePaths v) : q ≠ pagePath w := by
  rintro rfl
  exact absurd (length_of_mem_tablePaths h) (by simp [pagePath])

/-- The footprint of the space after a page is mapped. -/
theorem Fits.map {F : Footprint} {A B : Space} {v e : ℕ} (h : F.Fits A)
    (htable : ∀ q, (B.table q).isSome ↔ (A.table q).isSome ∨ q ∈ tablePaths v) (he : e ≠ 0)
    (hleaf : B.leaf = Function.update A.leaf (pagePath v) e) : (F.map v).Fits B where
  table {w q} hw hq := by
    have hne : (q == pagePath v) = false := beq_eq_false_iff_ne.2 (pagePath_ne hq)
    rw [Footprint.map, h.table hw hq, hne, Bool.or_false, Bool.eq_iff_iff, htable]
    simp
  page {w} hw := by
    have hnot : ¬ pagePath w ∈ tablePaths v := fun hmem => pagePath_ne hmem rfl
    rw [Footprint.map, h.page hw, decide_eq_false hnot, Bool.or_false, hleaf, Bool.eq_iff_iff]
    rcases eq_or_ne (pagePath w) (pagePath v) with heq | hne
    · rw [heq, Function.update_self]
      simp [he]
    · rw [Function.update_of_ne hne]
      simp [hne]

end Footprint

/-! ## Runs that end as their needs say -/

/-- The part of the file is there, the sum fits into 64 bits. -/
def Event.Inside (data : List UInt8) : Event → Prop
  | .read o n => o + n ≤ data.length
  | .sum v => v < 2 ^ 64
  | .header | .headers | .map _ | .expect => True

/-- Nothing went wrong so far. -/
def Calm (data : List UInt8) (log : List Event) : Prop :=
  .expect ∉ log ∧ ∀ w ∈ log, w.Inside data

/-- How a run stops that does not do what it is asked to. -/
inductive Stops {ε : Type} (data : List UInt8) : Fate → Fault ε → List Event → Prop
  | refused {e : Fault ε} {log : List Event} : e.IsErr → Calm data log → Stops data .refused e log
  | dead {e : Fault ε} {log : List Event} : e = .panic → .expect ∈ log →
    (∀ w ∈ log, w.Inside data) → Stops data .dead e log
  | strays {e : Fault ε} {log : List Event} : ¬ e.IsErr → .expect ∉ log →
    (∃ w ∈ log, ¬ w.Inside data) → Stops data .strays e log
  | halted {e : Fault ε} {log : List Event} : ¬ e.IsErr → Calm data log → Stops data .halted e log

/-- A panic is no error value. -/
theorem not_isErr_panic {ε : Type} : ¬ (Fault.panic : Fault ε).IsErr := fun ⟨_, h⟩ => by cases h

/-- An access out of bounds is no error value. -/
theorem not_isErr_outOfBounds {ε : Type} : ¬ (Fault.outOfBounds : Fault ε).IsErr :=
  fun ⟨_, h⟩ => by cases h

section
variable {ε σ α β : Type} [PageAllocator σ] {data : List UInt8} {n : ℕ} {l l' : List Need}
  {s s' : Machine σ} {log : List Event}

/-- The run ends as the needs say for `n` frames, and a result meets `Q`. -/
def Meets (data : List UInt8) (n : ℕ) (l : List Need) (Q : α → Machine σ → Prop)
    (r : Outcome ε (Machine σ × List Event) α) : Prop :=
  fate n l ≠ .wild → Sat r
    (fun a s => fate n l = .done ∧ PageAllocator.avail s.1.pages + Need.frames l = n ∧
      Calm data s.2 ∧ Q a s.1)
    fun e s => Stops data (fate n l) e s.2

namespace Meets

variable {Q Q' : α → Machine σ → Prop} {r : Outcome ε (Machine σ × List Event) α}

/-- The postcondition may be weakened. -/
theorem mono (h : Meets data n l Q r) (hQ : ∀ a s, Q a s → Q' a s) : Meets data n l Q' r :=
  fun hw => (h hw).mono (fun a s ha => ⟨ha.1, ha.2.1, ha.2.2.1, hQ a s.1 ha.2.2.2⟩) fun _ _ he => he

/-- A run that returns with nothing left to need. -/
theorem ok {a : α} (hlog : Calm data log) (hn : PageAllocator.avail s.pages = n) (hQ : Q a s) :
    Meets (ε := ε) data n [] Q (.ok a (s, log)) :=
  fun _ => sat_ok.2 ⟨rfl, hn, hlog, hQ⟩

/-- The rule of sequencing. -/
theorem bind {y : Exec ε (Machine σ × List Event) α} {g : α → Exec ε (Machine σ × List Event) β}
    {R : β → Machine σ → Prop} {t : Machine σ × List Event} (h : Meets data n l Q (y t))
    (hg : ∀ a s' log', Q a s' → Calm data log' →
      Meets data (PageAllocator.avail s'.pages) l' R (g a (s', log'))) :
    Meets data n (l ++ l') R ((y >>= g) t) := by
  intro hw
  rw [fate_append] at hw
  have hl : fate n l ≠ .wild := by
    intro hl
    rw [if_neg (by rw [hl]; decide), hl] at hw
    exact hw rfl
  refine Sat.bind ((h hl).mono ?_ ?_)
  · intro a s' ha
    obtain ⟨hdone, havail, hlog, hQ⟩ := ha
    have hn : n - Need.frames l = PageAllocator.avail s'.1.pages := by omega
    rw [if_pos hdone, hn] at hw
    rw [fate_append, if_pos hdone, hn, frames_append]
    refine (hg a s'.1 s'.2 hQ hlog hw).mono ?_ fun _ _ he => he
    intro b s'' hb
    exact ⟨hb.1, by have := hb.2.1; omega, hb.2.2⟩
  · intro e s' he
    have hne : fate n l ≠ .done := by
      intro hdone
      rw [hdone] at he
      cases he
    rwa [fate_append, if_neg hne]

/-- A step that returns and needs nothing. -/
theorem quiet_of_ok {x : Exec ε (Machine σ) α} {a : α}
    {g : α → Exec ε (Machine σ × List Event) β} {R : β → Machine σ → Prop} (hx : x s = .ok a s')
    (h : Meets data n l R (g a (s', log))) : Meets data n l R ((quiet x >>= g) (s, log)) := by
  rwa [Exec.bind_of_ok (Exec.quiet_of_ok hx)]

/-- A note comes before what is needed. -/
theorem noted {w : Event} {y : Exec ε (Machine σ × List Event) α}
    (h : Meets data n l Q (y (s, log ++ [w]))) :
    Meets data n l Q ((note w >>= fun _ => y) (s, log)) := h

/-- The page at `v` is used: from there on its address is not reserved. -/
theorem visit {v : ℕ} (h : ¬ Reserved v → Meets data n l Q r) :
    Meets data n (.visit v :: l) Q r := by
  intro hw
  rw [fate] at hw
  split at hw
  · exact absurd rfl hw
  case isFalse hv =>
    rw [fate, if_neg hv]
    exact h hv hw

/-- A frame for a page: without one the call reports an error. -/
theorem alloc {k : Option ℕ → Exec ε (Machine σ × List Event) α} (hlog : Calm data log)
    (hnone : ∃ e, k none (s, log) = .error (.err e) (s, log))
    (hsome : ∀ f pages, PageAllocator.allocPage s.pages = some (f, pages) →
      Meets data (PageAllocator.avail pages) l Q (k (some f) ({ s with pages := pages }, log))) :
    Meets data (PageAllocator.avail s.pages) (.page :: l) Q
      ((quiet allocPage >>= k) (s, log)) := by
  cases ha : PageAllocator.allocPage s.pages with
  | none =>
    obtain ⟨e, he⟩ := hnone
    rw [Exec.bind_of_ok (Exec.quiet_of_ok (allocPage_none ha)), he, PageAllocator.avail_none ha]
    exact fun _ => sat_error.2 (.refused ⟨e, rfl⟩ hlog)
  | some p =>
    have havail : PageAllocator.avail s.pages = PageAllocator.avail p.2 + 1 :=
      PageAllocator.avail_some ha
    rw [Exec.bind_of_ok (Exec.quiet_of_ok (allocPage_some ha)), havail]
    intro hw
    refine (hsome p.1 p.2 ha hw).mono (fun b s' hb => ⟨hb.1, ?_, hb.2.2⟩) fun _ _ he => he
    rw [Need.frames]
    have := hb.2.1
    omega

/-- A frame for a table: without one the kernel stops at `expect`. -/
theorem expect {k : ℕ → Exec ε (Machine σ × List Event) α} (hlog : Calm data log)
    (hsome : ∀ f pages, PageAllocator.allocPage s.pages = some (f, pages) →
      Meets data (PageAllocator.avail pages) l Q (k f ({ s with pages := pages }, log))) :
    Meets data (PageAllocator.avail s.pages) (.table :: l) Q
      ((Trace.allocPageExpect >>= k) (s, log)) := by
  cases ha : PageAllocator.allocPage s.pages with
  | none =>
    have hrun : (Trace.allocPageExpect : Exec ε (Machine σ × List Event) ℕ) (s, log) =
        .error .panic (s, log ++ [.expect]) := by
      rw [Trace.allocPageExpect, Exec.bind_of_ok (Exec.quiet_of_ok (allocPage_none ha))]
      rfl
    rw [Exec.bind_of_error hrun, PageAllocator.avail_none ha]
    refine fun _ => sat_error.2 (.dead rfl (by simp) fun w hw => ?_)
    rcases List.mem_append.1 hw with hw | hw
    · exact hlog.2 w hw
    · rw [List.mem_singleton.1 hw]
      trivial
  | some p =>
    have havail : PageAllocator.avail s.pages = PageAllocator.avail p.2 + 1 :=
      PageAllocator.avail_some ha
    have hrun : (Trace.allocPageExpect : Exec ε (Machine σ × List Event) ℕ) (s, log) =
        .ok p.1 ({ s with pages := p.2 }, log) := by
      rw [Trace.allocPageExpect, Exec.bind_of_ok (Exec.quiet_of_ok (allocPage_some ha))]
      rfl
    rw [Exec.bind_of_ok hrun, havail]
    intro hw
    refine (hsome p.1 p.2 ha hw).mono (fun b s' hb => ⟨hb.1, ?_, hb.2.2⟩) fun _ _ he => he
    rw [Need.frames]
    have := hb.2.1
    omega

/-- A note of something outside, right before the run stops. -/
theorem stray {e : Fault ε} {w : Event} (he : ¬ e.IsErr) (hlog : Calm data log)
    (hw : ¬ w.Inside data) :
    Meets data n (.stray :: l) Q (.error e (s, log ++ [w])) := by
  refine fun _ => sat_error.2 (.strays he (fun hmem => ?_) ⟨w, by simp, hw⟩)
  rcases List.mem_append.1 hmem with hmem | hmem
  · exact hlog.1 hmem
  · rw [← List.mem_singleton.1 hmem] at hw
    exact hw trivial

/-- The kernel stops at an address that is not aligned. -/
theorem halt (hlog : Calm data log) :
    Meets data n (.halt :: l) Q (.error (.panic : Fault ε) (s, log)) :=
  fun _ => sat_error.2 (.halted not_isErr_panic hlog)

end Meets

/-- At first nothing went wrong. -/
theorem calm_nil (data : List UInt8) : Calm data [] :=
  ⟨List.not_mem_nil, fun _ h => absurd h List.not_mem_nil⟩

/-- A note of something that did not go wrong. -/
theorem Calm.note {w : Event} (h : Calm data log) (hw : w ≠ .expect) (hin : w.Inside data) :
    Calm data (log ++ [w]) := by
  refine ⟨fun hmem => ?_, fun v hv => ?_⟩
  · rcases List.mem_append.1 hmem with hmem | hmem
    · exact h.1 hmem
    · exact hw (List.mem_singleton.1 hmem).symm
  · rcases List.mem_append.1 hv with hv | hv
    · exact h.2 v hv
    · rw [List.mem_singleton.1 hv]
      exact hin

/-! ## Mapping a page -/

variable {e511 cr3 : ℕ} {A : Space} {F : Footprint}

/-- What the table at a path needs. -/
def Paging.Space.tableNeed (A : Space) (q : List ℕ) : List Need :=
  if (A.table q).isSome then [] else [.table]

/-- One level of `map_user_page`, at a position where nothing is fixed. -/
theorem getOrCreate_meets {p : List ℕ} {t i : ℕ} (h : Holds e511 s A) (hp : A.table p = some t)
    (hlen : p.length < 3) (hi : i < 512) (hfix : fixed e511 p i = 0) (hlog : Calm data log) :
    Meets data (PageAllocator.avail s.pages) (A.tableNeed (p ++ [i]))
      (fun r s' => ∃ A' g, r = g + kernelVmaBase ∧ A'.table (p ++ [i]) = some g ∧
        Grow e511 1 s A s' A' ∧ A'.leaf = A.leaf ∧ ∀ q, q ≠ p ++ [i] → A'.table q = A.table q)
      ((Trace.getOrCreate (t + kernelVmaBase) i : Exec ε (Machine σ × List Event) ℕ) (s, log)) := by
  have hw : word s.mem t i = A.entry e511 p i := h.words hp hi
  rw [Space.entry, if_neg (by omega)] at hw
  unfold Trace.getOrCreate
  refine Meets.quiet_of_ok (getEntry_run s t i) ?_
  cases hc : A.table (p ++ [i]) with
  | some g =>
    rw [hc] at hw
    have hwg : word s.mem t i = g + 7 := hw
    have hg := h.frame hc
    rw [if_neg (by omega), Space.tableNeed, hc]
    refine Meets.quiet_of_ok (getEntry_run s t i) ?_
    rw [hwg, frameOf_add hg.1 (by omega) (by omega), Exec.quiet_of_ok (physToVirt_run (by omega))]
    exact Meets.ok hlog rfl
      ⟨A, g, rfl, hc, (Grow.refl h).weaken (by decide), rfl, fun _ _ => rfl⟩
  | none =>
    rw [hc] at hw
    have hw0 : word s.mem t i = 0 := hw.trans hfix
    rw [if_pos hw0, Space.tableNeed, hc]
    refine Meets.expect hlog fun f pages ha => ?_
    have hfree := PageAllocator.mem_free ha
    have hf := PageAllocator.aligned hfree
    have hf' := PageAllocator.below hfree
    refine Meets.quiet_of_ok (physToVirt_run (by omega)) ?_
    refine Meets.quiet_of_ok (zeroPage_run _ f) ?_
    refine Meets.quiet_of_ok (setEntry_run _ t i _) ?_
    refine Meets.quiet_of_ok (getEntry_run _ t i) ?_
    rw [tableEntry_eq hf, word_setWord_self _ _ _ (by omega), frameOf_add hf (by omega) (by omega),
      Exec.quiet_of_ok (physToVirt_run (by omega))]
    refine Meets.ok hlog rfl ?_
    exact ⟨_, f, rfl, Space.hang_table_self _ _ _, h.hang hp hlen hi hfix hc ha, rfl,
      fun q hq => Space.hang_table_of_ne hq⟩

/-- `map_user_page` at an address that is not reserved. -/
theorem mapUserPage_meets {v paddr flags : ℕ} (h : Holds e511 s A) (hroot : A.table [] = some cr3)
    (hv : ¬ Reserved v) (hF : F.Fits A) (hp : paddr < 2 ^ 64) (hf : flags < 2 ^ 64)
    (hlog : Calm data log) :
    Meets data (PageAllocator.avail s.pages) (F.tableNeeds v)
      (fun _ s' => ∃ A' : Space, Grow e511 3 s A s'
        (A'.setLeaf (pagePath v) (paddr ||| flags ||| present ||| user)) ∧ A'.leaf = A.leaf ∧
        ∀ q, (A'.table q).isSome ↔ (A.table q).isSome ∨ q ∈ tablePaths v)
      ((Trace.mapUserPage cr3 v paddr flags : Exec ε (Machine σ × List Event) PUnit) (s, log)) := by
  have hcr3 := h.frame hroot
  have hentry : paddr ||| flags ||| present ||| user < 2 ^ 64 :=
    Nat.or_lt_two_pow (n := 64) (Nat.or_lt_two_pow (Nat.or_lt_two_pow hp hf) (by decide))
      (by decide)
  have hneeds : F.tableNeeds v = A.tableNeed [index 39 v] ++ (A.tableNeed [index 39 v, index 30 v]
      ++ (A.tableNeed [index 39 v, index 30 v, index 21 v] ++ [])) := by
    have hfit : ∀ q ∈ tablePaths v, F q = (A.table q).isSome := fun q hq => hF.table hv hq
    simp only [tablePaths, List.forall_mem_cons] at hfit
    simp only [Footprint.tableNeeds, tablePaths, List.flatMap_cons, List.flatMap_nil, hfit.1,
      hfit.2.1, hfit.2.2.1, Space.tableNeed]
  rw [hneeds]
  have hlog' : Calm data (log ++ [.map v]) := hlog.note (by simp) trivial
  unfold Trace.mapUserPage
  refine Meets.noted ?_
  refine Meets.quiet_of_ok (physToVirt_run (by omega)) ?_
  have h4 := getOrCreate_meets (ε := ε) h hroot (by decide) (index_lt 39 v) (fixed_pml4 hv) hlog'
  refine h4.bind ?_
  rintro _ s₁ log₁ ⟨A₁, t₁, rfl, ht₁, hg₁, hl₁, hkeep₁⟩ hlog₁
  rw [List.nil_append] at ht₁ hkeep₁
  have h3 := getOrCreate_meets (ε := ε) hg₁.holds ht₁ (by simp) (index_lt 30 v) rfl hlog₁
  rw [List.singleton_append, Space.tableNeed, hkeep₁ _ (by simp)] at h3
  refine h3.bind ?_
  rintro _ s₂ log₂ ⟨A₂, t₂, rfl, ht₂, hg₂, hl₂, hkeep₂⟩ hlog₂
  have h2 := getOrCreate_meets (ε := ε) hg₂.holds ht₂ (by simp) (index_lt 21 v) (fixed_pd hv) hlog₂
  have hpath : [index 39 v, index 30 v] ++ [index 21 v] =
      [index 39 v, index 30 v, index 21 v] := rfl
  rw [hpath, Space.tableNeed, hkeep₂ _ (by simp), hkeep₁ _ (by simp)] at h2
  refine h2.bind ?_
  rintro _ s₃ log₃ ⟨A₃, t₃, rfl, ht₃, hg₃, hl₃, hkeep₃⟩ hlog₃
  have hset := hg₃.holds.setLeaf ht₃ rfl (index_lt 12 v) hentry
  rw [Exec.quiet_of_ok (setEntry_run s₃ t₃ _ _)]
  refine Meets.ok hlog₃ rfl ?_
  refine ⟨A₃, (hg₁.trans (hg₂.trans hg₃)).trans hset, hl₃.trans (hl₂.trans hl₁), ?_⟩
  -- the tables after the three levels
  intro q
  have hmem : q ∈ tablePaths v ↔ q = [index 39 v] ∨ q = [index 39 v, index 30 v] ∨
      q = [index 39 v, index 30 v, index 21 v] := by simp [tablePaths]
  rw [hmem]
  have ht₁' := hg₂.mono ht₁
  by_cases h1 : q = [index 39 v]
  · rw [h1, hg₃.mono ht₁']
    simp
  by_cases h2 : q = [index 39 v, index 30 v]
  · rw [h2, hg₃.mono ht₂]
    simp
  by_cases h3 : q = [index 39 v, index 30 v, index 21 v]
  · rw [h3, ht₃]
    simp
  rw [hkeep₃ q h3, hkeep₂ q h2, hkeep₁ q h1]
  simp [h1, h2, h3]

/-- `map_user_page` with a frame just taken. -/
theorem Paging.Owned.mapFresh_meets {v f flags : ℕ} {pages : σ} {m : Mem} (h : Owned e511 s A)
    (hroot : A.table [] = some cr3) (hv : ¬ Reserved v) (hF : F.Fits A)
    (ha : PageAllocator.allocPage s.pages = some (f, pages)) (hm : SameOutside {f} s.mem m)
    (hfl : flags < 4096) (hlog : Calm data log) :
    Meets data (PageAllocator.avail pages) (F.tableNeeds v)
      (fun _ s' => ∃ A', Owned e511 s' A' ∧ A'.table [] = some cr3 ∧ (F.map v).Fits A' ∧
        A'.leaf (pagePath v) = f + (flags ||| present ||| user))
      ((Trace.mapUserPage cr3 v f flags : Exec ε (Machine σ × List Event) PUnit)
        (⟨m, pages⟩, log)) := by
  have hfree := PageAllocator.mem_free ha
  have hf := PageAllocator.aligned hfree
  have hf' := PageAllocator.below hfree
  have hholds : Holds e511 ⟨m, pages⟩ A := by
    refine h.toHolds.of_sameOutside hm (fun g hg => ?_) ?_
    · rw [Set.mem_singleton_iff.1 hg]
      exact ⟨hf, fun hmem => h.taken hmem hfree⟩
    · show PageAllocator.free pages ⊆ PageAllocator.free s.pages
      rw [PageAllocator.free_eq ha]
      exact Set.sdiff_subset
  have hspec := mapUserPage_meets (ε := ε) hholds hroot hv hF (show f < 2 ^ 64 by omega)
    (show flags < 2 ^ 64 by omega) hlog
  rw [pageEntry_eq hf hfl] at hspec
  refine hspec.mono ?_
  rintro _ s' ⟨B, hg, hleaf, htable⟩
  have hleaf' : (B.setLeaf (pagePath v) (f + (flags ||| present ||| user))).leaf =
      Function.update A.leaf (pagePath v) (f + (flags ||| present ||| user)) := by
    rw [← hleaf]
    rfl
  obtain ⟨hev, -⟩ := h.evolves_of_grow (q := pagePath v) ha hm hg (pageEntry_lt hfl)
    (pageEntry_present flags) (fun p hp => by
      rw [hleaf']
      rcases eq_or_ne p (pagePath v) with rfl | hne
      · exact .inr ⟨rfl, Function.update_self _ _ _⟩
      · exact .inl (Function.update_of_ne hne _ _))
  exact ⟨_, hev.owned, hev.root.trans hroot, hF.map htable (pageEntry_ne_zero f flags) hleaf', by
    rw [hleaf', Function.update_self]⟩

/-- The address space at `cr3` is in memory, with frames of its own, and has the footprint. -/
def Placed (cr3 : ℕ) (F : Footprint) (s : Machine σ) : Prop :=
  ∃ e511 A, Owned e511 s A ∧ A.table [] = some cr3 ∧ F.Fits A

/-- No table hangs below one that is not there. -/
theorem Paging.Rep.table_none {m : Mem} (h : Rep e511 m A) {p : List ℕ} {i : ℕ}
    (hp : A.table p = none) : A.table (p ++ [i]) = none := by
  cases hc : A.table (p ++ [i]) with
  | none => rfl
  | some g =>
    obtain ⟨g', hg'⟩ := h.parent hc
    rw [hp] at hg'
    cases hg'

/-- One step more along a path in memory. -/
theorem Paging.Rep.pathAt_append {m : Mem} (h : Rep e511 m A) {p : List ℕ} {i : ℕ}
    (hp : ∀ q, pathAt m cr3 (p ++ q) = (A.table p).elim false fun g => pathAt m g q)
    (hlen : p.length < 3) (hi : i < 512) (hfix : fixed e511 p i = 0) (q : List ℕ) :
    pathAt m cr3 (p ++ [i] ++ q) = (A.table (p ++ [i])).elim false fun g => pathAt m g q := by
  rw [List.append_assoc, hp]
  rcases ht : A.table p with _ | t
  · rw [h.table_none ht, Option.elim_none, Option.elim_none]
  · have hw : word m t i = A.entry e511 p i := h.words ht hi
    rw [Space.entry, if_neg (by omega)] at hw
    rw [Option.elim_some, List.singleton_append, pathAt, hw]
    rcases hc : A.table (p ++ [i]) with _ | g
    · simp [hfix]
    · have hg := h.frame hc
      simp [frameOf_add hg.1 (show g < 2 ^ 52 by omega) (show 7 < 4096 by decide)]

/-- The last step along a path in memory, into a page table. -/
theorem Paging.Rep.pathAt_leaf {m : Mem} (h : Rep e511 m A) {p : List ℕ} {i : ℕ}
    (hp : ∀ q, pathAt m cr3 (p ++ q) = (A.table p).elim false fun g => pathAt m g q)
    (hlen : p.length = 3) (hi : i < 512) :
    pathAt m cr3 (p ++ [i]) = decide (A.leaf (p ++ [i]) ≠ 0) := by
  rw [hp]
  cases ht : A.table p with
  | none => simp [h.orphan ht]
  | some t =>
    have hw : word m t i = A.entry e511 p i := h.words ht hi
    rw [Space.entry, if_pos hlen] at hw
    rw [Option.elim_some, pathAt, hw, pathAt, Bool.and_true, Bool.eq_iff_iff]
    simp

/-- The footprint read in memory is that of the address space. -/
theorem Paging.Rep.fits {m : Mem} (h : Rep e511 m A) (hroot : A.table [] = some cr3) :
    Footprint.Fits (pathAt m cr3) A := by
  have h4 : ∀ {v}, ¬ Reserved v → ∀ q, pathAt m cr3 ([index 39 v] ++ q) =
      (A.table [index 39 v]).elim false fun g => pathAt m g q := fun hv =>
    h.pathAt_append (p := []) (i := index 39 _) (by rw [hroot]; exact fun _ => rfl) (by decide)
      (index_lt 39 _) (fixed_pml4 hv)
  have h3 : ∀ {v}, ¬ Reserved v → ∀ q, pathAt m cr3 ([index 39 v, index 30 v] ++ q) =
      (A.table [index 39 v, index 30 v]).elim false fun g => pathAt m g q := fun hv =>
    h.pathAt_append (p := [index 39 _]) (i := index 30 _) (h4 hv) (by simp) (index_lt 30 _) rfl
  have h2 : ∀ {v}, ¬ Reserved v → ∀ q, pathAt m cr3 ([index 39 v, index 30 v, index 21 v] ++ q) =
      (A.table [index 39 v, index 30 v, index 21 v]).elim false fun g => pathAt m g q := fun hv =>
    h.pathAt_append (p := [index 39 _, index 30 _]) (i := index 21 _) (h3 hv) (by simp)
      (index_lt 21 _) (fixed_pd hv)
  refine ⟨fun {v q} hv hq => ?_, fun {v} hv => h.pathAt_leaf
    (p := [index 39 v, index 30 v, index 21 v]) (h2 hv) rfl (index_lt 12 v)⟩
  have hsome : ∀ {p : List ℕ}, (∀ q, pathAt m cr3 (p ++ q) =
      (A.table p).elim false fun g => pathAt m g q) → pathAt m cr3 p = (A.table p).isSome := by
    intro p hp
    have hnil := hp []
    rw [List.append_nil] at hnil
    rw [hnil]
    cases A.table p <;> rfl
  simp only [tablePaths, List.mem_cons, List.not_mem_nil, or_false] at hq
  rcases hq with rfl | rfl | rfl
  · exact hsome (h4 hv)
  · exact hsome (h3 hv)
  · exact hsome (h2 hv)

/-- A space with its frames is placed in memory. -/
theorem Paging.Owned.placed (h : Owned e511 s A) (hroot : A.table [] = some cr3) :
    Placed cr3 (pathAt s.mem cr3) s := ⟨e511, A, h, hroot, h.toRep.fits hroot⟩

end

end RossOs
