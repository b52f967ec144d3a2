import Mathlib.Data.List.Nodup
import Mathlib.Data.Set.Finite.Basic
import Mathlib.Order.Preorder.Finite
import Mathlib.Logic.Function.Iterate

/-!
# Chains of links

A table of links, each cell naming the next one, and the chains in it: `Chain next In End a l` says
that following the links from `a` visits the cells `l`, all of them in `In`, and then meets an end
mark. When no cell is an end mark, a chain is determined by its first cell and never visits a cell
twice. The rules say what survives a change of the table: a chain whose cells keep their links, and
a chain that gets a new cell at its end. Cells with distinct predecessors give disjoint chains.
-/

/-- Following `next` from `a` visits `l` and then meets an end mark. -/
inductive Chain {α : Type} (next : α → α) (In End : α → Prop) : α → List α → Prop
  | last {a : α} : In a → End (next a) → Chain next In End a [a]
  | cons {a : α} {l : List α} : In a → Chain next In End (next a) l → Chain next In End a (a :: l)

namespace Chain

variable {α : Type} {next next' : α → α} {In End : α → Prop} {a b c : α} {l l' : List α}

/-- A chain from `a` has `a` as its head. -/
theorem head?_eq (h : Chain next In End a l) : l.head? = some a := by
  cases h <;> rfl

/-- A chain is not empty. -/
theorem ne_nil (h : Chain next In End a l) : l ≠ [] := by
  cases h <;> exact List.cons_ne_nil _ _

/-- A chain contains its head. -/
theorem head_mem (h : Chain next In End a l) : a ∈ l := by
  cases h <;> exact List.mem_cons_self

/-- Every member of a chain is in range. -/
theorem mem_in (h : Chain next In End a l) : ∀ b ∈ l, In b := by
  induction h with
  | last ha _ => exact fun b hb => List.mem_singleton.1 hb ▸ ha
  | cons ha _ ih => exact List.forall_mem_cons.2 ⟨ha, ih⟩

/-- The rest of a chain from one of its cells on is a chain. -/
theorem suffix (h : Chain next In End a l) {pre : List α} (hl : l = pre ++ b :: l') :
    Chain next In End b (b :: l') := by
  induction h generalizing pre with
  | @last a ha hend =>
    cases pre with
    | nil =>
      cases hl
      exact .last ha hend
    | cons x pre =>
      injection hl with _ hl
      exact absurd hl (by simp)
  | @cons a l ha h ih =>
    cases pre with
    | nil =>
      cases hl
      exact .cons ha h
    | cons x pre =>
      injection hl with _ hl
      exact ih hl

/-- A cell of a chain starts a chain, which is part of it. -/
theorem of_mem (h : Chain next In End a l) (hb : b ∈ l) :
    ∃ l', Chain next In End b l' ∧ l' <:+ l := by
  obtain ⟨pre, rest, rfl⟩ := List.append_of_mem hb
  exact ⟨_, h.suffix rfl, List.suffix_append _ _⟩

/-- Two neighbours in a chain are linked. -/
theorem next_eq (h : Chain next In End a l) {i : ℕ} (hb : l[i]? = some b)
    (hc : l[i + 1]? = some c) : next b = c := by
  induction h generalizing i with
  | last => simp at hc
  | @cons a l _ h ih =>
    cases i with
    | zero =>
      cases hb
      rw [List.getElem?_cons_succ, ← List.head?_eq_getElem?, h.head?_eq] at hc
      exact Option.some.inj hc
    | succ i => exact ih hb hc

/-- After the last cell comes an end mark. -/
theorem end_getLast? (h : Chain next In End a l) (hb : l.getLast? = some b) : End (next b) := by
  induction h with
  | last _ hend =>
    cases hb
    exact hend
  | @cons a l _ h ih =>
    refine ih ?_
    rw [← hb, List.getLast?_cons]
    cases hl : l.getLast? with
    | none => exact absurd (List.getLast?_eq_none_iff.1 hl) h.ne_nil
    | some x => rfl

/-- A chain survives while its cells keep their links. -/
theorem congr (h : Chain next In End a l) (heq : ∀ b ∈ l, next' b = next b) :
    Chain next' In End a l := by
  induction h with
  | @last a ha hend =>
    refine .last ha ?_
    rwa [heq a List.mem_cons_self]
  | @cons a l ha h ih =>
    refine .cons ha ?_
    rw [heq a List.mem_cons_self]
    exact ih fun b hb => heq b (List.mem_cons_of_mem _ hb)

section
variable (hne : ∀ {x : α}, In x → ¬ End x)

include hne

/-- A chain is determined by its first cell. -/
theorem unique (h : Chain next In End a l) (h' : Chain next In End a l') : l = l' := by
  induction h generalizing l' with
  | last ha hend =>
    cases h' with
    | last => rfl
    | cons _ h' => exact absurd hend (hne (h'.mem_in _ h'.head_mem))
  | cons ha h ih =>
    cases h' with
    | last _ hend => exact absurd hend (hne (h.mem_in _ h.head_mem))
    | cons _ h' => rw [ih h']

/-- A chain visits no cell twice: from the same cell on it would have to go on alike. -/
theorem nodup (h : Chain next In End a l) : l.Nodup := by
  induction h with
  | last => exact List.nodup_singleton _
  | @cons a l ha h ih =>
    refine List.nodup_cons.2 ⟨fun hmem => ?_, ih⟩
    obtain ⟨l', hl', hsuf⟩ := h.of_mem hmem
    have hlen := congrArg List.length (hl'.unique hne (.cons ha h))
    have := hsuf.length_le
    rw [List.length_cons] at hlen
    omega

/-- A new cell at the end of a chain. -/
theorem append (h : Chain next In End a l) (hb : l.getLast? = some b) (hc : In c)
    (hlink : next' b = c) (hend : End (next' c)) (hsame : ∀ x ∈ l, x ≠ b → next' x = next x) :
    Chain next' In End a (l ++ [c]) := by
  induction h with
  | @last a ha _ =>
    obtain rfl : a = b := Option.some.inj hb
    refine .cons ha ?_
    rw [hlink]
    exact .last hc hend
  | @cons a l ha h ih =>
    have hlast : l.getLast? = some b := by
      rw [← hb, List.getLast?_cons]
      cases hl : l.getLast? with
      | none => exact absurd (List.getLast?_eq_none_iff.1 hl) h.ne_nil
      | some x => rfl
    have hab : a ≠ b := by
      rintro rfl
      exact (List.nodup_cons.1 ((Chain.cons ha h).nodup hne)).1 (List.mem_of_getLast? hlast)
    refine .cons ha ?_
    rw [hsame a List.mem_cons_self hab]
    exact ih hlast fun x hx => hsame x (List.mem_cons_of_mem _ hx)

end

/-- A link at a cell of a chain is to a cell of the chain, or to an end mark. -/
theorem next_mem_or_end (h : Chain next In End a l) (hb : b ∈ l) : next b ∈ l ∨ End (next b) := by
  obtain ⟨l', hl', hsuf⟩ := h.of_mem hb
  cases hl' with
  | last _ hend => exact .inr hend
  | cons _ hrest => exact .inl (hsuf.subset (List.mem_cons_of_mem _ hrest.head_mem))

/-- A cell of a chain is the first one, or another cell of the chain links to it. -/
theorem eq_or_pred (h : Chain next In End a l) (hb : b ∈ l) : b = a ∨ ∃ c ∈ l, next c = b := by
  induction h with
  | last => exact .inl (List.mem_singleton.1 hb)
  | @cons a l _ h ih =>
    rcases List.mem_cons.1 hb with rfl | hb
    · exact .inl rfl
    · rcases ih hb with rfl | ⟨c, hc, he⟩
      · exact .inr ⟨a, List.mem_cons_self, rfl⟩
      · exact .inr ⟨c, List.mem_cons_of_mem _ hc, he⟩

/-- With distinct predecessors, a chain that starts outside another one stays outside, when no cell
links to the first cell of the other. -/
theorem disjoint (h : Chain next In End a l) (h' : Chain next In End b l') (ha : a ∉ l')
    (hb : ∀ x, In x → next x ≠ b)
    (hinj : ∀ x y, In x → In y → In (next x) → next x = next y → x = y) : ∀ c ∈ l, c ∉ l' := by
  induction h with
  | last => exact fun c hc => List.mem_singleton.1 hc ▸ ha
  | @cons a l hin h ih =>
    refine List.forall_mem_cons.2 ⟨ha, ih fun hmem => ?_⟩
    rcases h'.eq_or_pred hmem with he | ⟨z, hz, he⟩
    · exact hb a hin he
    · have hza := hinj a z hin (h'.mem_in z hz) (h.mem_in _ h.head_mem) he.symm
      exact ha (hza ▸ hz)

/-! ## Cycles -/

/-- A link from a cell to a cell. -/
def Link (next : α → α) (In : α → Prop) (a b : α) : Prop := In a ∧ In b ∧ next a = b

/-- A cell on a chain is on no cycle. -/
theorem not_cycle (hne : ∀ {x : α}, In x → ¬ End x) (h : Chain next In End a l) :
    ¬ Relation.TransGen (Link next In) a a := by
  -- what can be reached from `a` is further down the chain
  have hclosed : ∀ {m : List α}, (∀ x ∈ m, next x ∈ m ∨ End (next x)) → ∀ {x y : α}, x ∈ m →
      Relation.TransGen (Link next In) x y → y ∈ m := by
    intro m hm x y hx hxy
    induction hxy with
    | single hlink =>
      obtain ⟨-, hy, rfl⟩ := hlink
      exact (hm x hx).resolve_right (hne hy)
    | tail _ hlink ih =>
      obtain ⟨-, hy, rfl⟩ := hlink
      exact (hm _ ih).resolve_right (hne hy)
  intro hcycle
  cases h with
  | last ha hend =>
    obtain ⟨y, ⟨-, hy, rfl⟩, -⟩ := Relation.TransGen.head'_iff.1 hcycle
    exact hne hy hend
  | @cons _ m ha hrest =>
    obtain ⟨y, ⟨-, hy, rfl⟩, hback⟩ := Relation.TransGen.head'_iff.1 hcycle
    have hnot := (List.nodup_cons.1 ((Chain.cons ha hrest).nodup hne)).1
    rcases Relation.reflTransGen_iff_eq_or_transGen.1 hback with heq | hback
    · exact hnot (heq ▸ hrest.head_mem)
    · exact hnot (hclosed (fun x hx => hrest.next_mem_or_end hx) hrest.head_mem hback)

/-- Without cycles, in finitely many cells whose links lead to cells or to end marks, every cell
starts a chain. -/
theorem exists_of_acyclic {S : Set α} (hfin : S.Finite) (hin : ∀ x ∈ S, In x)
    (hclosed : ∀ x ∈ S, End (next x) ∨ next x ∈ S)
    (hacyclic : ∀ x ∈ S, ¬ Relation.TransGen (Link next In) x x) (ha : a ∈ S) :
    ∃ l, Chain next In End a l := by
  have := hfin.to_subtype
  let R : S → S → Prop := fun x y => Relation.TransGen (Link next In) y.1 x.1
  have htrans : IsTrans S R := ⟨fun _ _ _ h h' => h'.trans h⟩
  have hirrefl : Std.Irrefl R := ⟨fun x => hacyclic x.1 x.2⟩
  have hwf : WellFounded R := Finite.wellFounded_of_trans_of_irrefl R
  have key : ∀ x : S, ∃ l, Chain next In End x.1 l := by
    intro x
    induction x using hwf.induction with
    | _ x ih =>
      rcases hclosed x.1 x.2 with hend | hnext
      · exact ⟨_, .last (hin _ x.2) hend⟩
      · obtain ⟨l, hl⟩ := ih ⟨next x.1, hnext⟩ (.single ⟨hin _ x.2, hin _ hnext, rfl⟩)
        exact ⟨_, .cons (hin _ x.2) hl⟩
  exact key ⟨a, ha⟩

/-! ## Tables of chains

A mark `free` for cells that are not in use. The cells in use form chains, and a chain may grow by
cells that were free. -/

/-- No cell of a chain links to the first one. -/
theorem next_ne_head (hne : ∀ {x : α}, In x → ¬ End x) (h : Chain next In End a l) (hb : b ∈ l) :
    next b ≠ a := by
  rintro rfl
  obtain ⟨l', hl', hsuf⟩ := h.of_mem hb
  have hle := hsuf.length_le
  cases hl' with
  | last _ hend => exact hne (h.mem_in _ h.head_mem) hend
  | cons _ hrest =>
    rw [hrest.unique hne h, List.length_cons] at hle
    omega

/-- Two cells of a chain link to different cells. -/
theorem next_inj (hne : ∀ {x : α}, In x → ¬ End x) (h : Chain next In End a l) (hb : b ∈ l)
    (hc : c ∈ l) (hin : In (next b)) (heq : next b = next c) : b = c := by
  obtain ⟨m, hm, hsuf⟩ := h.of_mem hb
  obtain ⟨m', hm', hsuf'⟩ := h.of_mem hc
  cases hm with
  | last _ hend => exact absurd hend (hne hin)
  | @cons _ r _ hr =>
    cases hm' with
    | last _ hend => exact absurd (heq ▸ hend) (hne hin)
    | @cons _ r' _ hr' =>
      rw [← heq] at hr'
      obtain rfl := hr.unique hne hr'
      obtain ⟨pre, hpre⟩ := hsuf
      obtain ⟨pre', hpre'⟩ := hsuf'
      have hlast := List.append_inj_right' (hpre.trans hpre'.symm) (by simp)
      exact (List.cons.inj hlast).1

/-- The cells in use: their links lead to cells in use or to end marks, no two of them link to the
same cell, and there is no cycle. -/
structure Forest (next : α → α) (In End : α → Prop) (free : α) : Prop where
  closed : ∀ x, In x → next x ≠ free → End (next x) ∨ In (next x) ∧ next (next x) ≠ free
  inj : ∀ x y, In x → In y → In (next x) → next x = next y → x = y
  acyclic : ∀ x, ¬ Relation.TransGen (Link next In) x x

/-- A cell in use that no cell links to. -/
structure Head (next : α → α) (In : α → Prop) (free a : α) : Prop where
  inside : In a
  used : next a ≠ free
  first : ∀ x, In x → next x ≠ a

/-- Being a head depends on the links in range only. -/
theorem Head.congr {free : α} (h : Head next In free a) (heq : ∀ x, In x → next' x = next x) :
    Head next' In free a where
  inside := h.inside
  used := by
    rw [heq a h.inside]
    exact h.used
  first := fun x hx => by
    rw [heq x hx]
    exact h.first x hx

/-- Being a forest depends on the links in range only. -/
theorem Forest.congr {free : α} (h : Forest next In End free) (heq : ∀ x, In x → next' x = next x) :
    Forest next' In End free where
  closed := fun x hx => by
    rw [heq x hx]
    exact fun hused => (h.closed x hx hused).imp_right fun ⟨hz, hz'⟩ => ⟨hz, by rwa [heq _ hz]⟩
  inj := fun x y hx hy => by
    rw [heq x hx, heq y hy]
    exact h.inj x y hx hy
  acyclic := fun x hcycle => by
    have hlinks : Link next' In ≤ Link next In := fun y z ⟨hy, hz, hyz⟩ => ⟨hy, hz, heq y hy ▸ hyz⟩
    exact h.acyclic x (Relation.TransGen.mono hlinks x x hcycle)

section
variable {free : α} {new : List α}

/-- A member of a chain never links to the free mark. -/
theorem used (h : Chain next In End a l) (hin : ¬ In free) (hend : ¬ End free) (hb : b ∈ l) :
    next b ≠ free := by
  intro hfree
  rcases h.next_mem_or_end hb with hmem | hlast
  · exact hin (hfree ▸ h.mem_in _ hmem)
  · exact hend (hfree ▸ hlast)

/-- Every cell in use starts a chain. -/
theorem Forest.chain (h : Forest next In End free) (hfin : {x | In x}.Finite) (ha : In a)
    (hused : next a ≠ free) : ∃ l, Chain next In End a l := by
  have hsub : {x | In x ∧ next x ≠ free} ⊆ {x | In x} := fun x hx => hx.1
  refine exists_of_acyclic (hfin.subset hsub) hsub (fun x hx => ?_) (fun x _ => h.acyclic x)
    ⟨ha, hused⟩
  exact h.closed x hx.1 hx.2

/-- The chains of two heads have no cell in common. -/
theorem Forest.disjoint (h : Forest next In End free) (hl : Chain next In End a l)
    (hl' : Chain next In End b l') (ha : Head next In free a) (hb : Head next In free b)
    (hab : a ≠ b) : ∀ c ∈ l, c ∉ l' := by
  refine hl.disjoint hl' (fun hmem => ?_) hb.first h.inj
  rcases hl'.eq_or_pred hmem with heq | ⟨x, hx, heq⟩
  · exact hab heq
  · exact ha.first x (hl'.mem_in x hx) heq

/-- No cell outside a chain and some free cells links into them. -/
theorem Forest.next_notMem {x : α} (h : Forest next In End free) (hne : ∀ {x : α}, In x → ¬ End x)
    (hin : ¬ In free) (hold : l = [] ∨ Chain next In End a l ∧ Head next In free a)
    (hnew : ∀ x ∈ new, In x ∧ next x = free) (hx : In x) (hout : x ∉ l ++ new) :
    next x ∉ l ++ new := by
  intro hmem
  rcases List.mem_append.1 hmem with hmem | hmem
  · rcases hold with rfl | ⟨hl, ha⟩
    · cases hmem
    · rcases hl.eq_or_pred hmem with heq | ⟨w, hw, heq⟩
      · exact ha.first x hx heq
      · have hwx := h.inj w x (hl.mem_in w hw) hx (heq ▸ hl.mem_in _ hmem) heq
        exact hout (List.mem_append_left _ (hwx ▸ hw))
  · obtain ⟨hinx, hfree⟩ := hnew _ hmem
    have hne' : next x ≠ free := fun heq => hin (heq ▸ hinx)
    rcases h.closed x hx hne' with hlast | ⟨-, hused⟩
    · exact hne hinx hlast
    · exact hused hfree

/-- A head is outside a chain and some free cells, or it is that of the chain. -/
theorem Head.notMem_or_eq {b : α} (hb : Head next In free b)
    (hold : l = [] ∨ Chain next In End a l ∧ Head next In free a)
    (hnew : ∀ x ∈ new, In x ∧ next x = free) : b ∉ l ++ new ∨ b = a := by
  by_cases hmem : b ∈ l ++ new
  · rcases List.mem_append.1 hmem with hmem | hmem
    · rcases hold with rfl | ⟨hl, -⟩
      · cases hmem
      · rcases hl.eq_or_pred hmem with heq | ⟨w, hw, heq⟩
        · exact .inr heq
        · exact absurd heq (hb.first w (hl.mem_in w hw))
    · exact absurd (hnew b hmem).2 hb.used
  · exact .inl hmem

/-- A cell in use outside a chain that grows keeps its own chain. -/
theorem Forest.chain_outside (h : Forest next In End free) (hin : ¬ In free) (hend : ¬ End free)
    (hfin : {x | In x}.Finite) (hinto : ∀ x, In x → x ∉ l → next x ∉ l)
    (hsame : ∀ x, In x → x ∉ l → next' x = next x) {x : α} (hx : In x) (hout : x ∉ l)
    (hused : next x ≠ free) : ∃ m, Chain next' In End x m := by
  obtain ⟨m, hm⟩ := h.chain hfin hx hused
  have hdisj : ∀ y ∈ m, y ∉ l := by
    intro y hy
    induction hm with
    | last => exact List.mem_singleton.1 hy ▸ hout
    | @cons x m hx hm ih =>
      rcases List.mem_cons.1 hy with rfl | hy
      · exact hout
      · exact ih (hm.mem_in _ hm.head_mem) (hinto x hx hout) (hm.used hin hend hm.head_mem) hy
  exact ⟨m, hm.congr fun y hy => hsame y (hm.mem_in y hy) (hdisj y hy)⟩

/-- The head of another chain stays one when a chain grows. -/
theorem Head.outside {b : α} (hb : Head next In free b) (hne : ∀ {x : α}, In x → ¬ End x)
    (hchain : Chain next' In End a l) (hsame : ∀ x, In x → x ∉ l → next' x = next x)
    (hout : b ∉ l) : Head next' In free b := by
  refine ⟨hb.inside, ?_, fun x hx => ?_⟩
  · rw [hsame b hb.inside hout]
    exact hb.used
  · by_cases hmem : x ∈ l
    · intro heq
      rcases hchain.next_mem_or_end hmem with hmem' | hlast
      · exact hout (heq ▸ hmem')
      · exact hne hb.inside (heq ▸ hlast)
    · rw [hsame x hx hmem]
      exact hb.first x hx

/-- A chain grows, or a new one starts, by cells that were free. -/
theorem Forest.extend (h : Forest next In End free) (hne : ∀ {x : α}, In x → ¬ End x)
    (hin : ¬ In free) (hend : ¬ End free) (hfin : {x | In x}.Finite)
    (hold : l = [] ∨ Chain next In End a l ∧ Head next In free a)
    (hnew : ∀ x ∈ new, In x ∧ next x = free) (hchain : Chain next' In End a (l ++ new))
    (hsame : ∀ x, In x → x ∉ l ++ new → next' x = next x) :
    Forest next' In End free ∧ Head next' In free a ∧
      ∀ b, Head next In free b → Head next' In free b := by
  have hinto : ∀ x, In x → x ∉ l ++ new → next x ∉ l ++ new := fun x hx hout =>
    h.next_notMem hne hin hold hnew hx hout
  have hfirst : Head next' In free a := by
    refine ⟨hchain.mem_in _ hchain.head_mem, hchain.used hin hend hchain.head_mem, fun x hx => ?_⟩
    by_cases hmem : x ∈ l ++ new
    · exact hchain.next_ne_head hne hmem
    · rw [hsame x hx hmem]
      exact fun heq => hinto x hx hmem (heq ▸ hchain.head_mem)
  refine ⟨⟨fun x hx hused => ?_, fun x y hx hy hz heq => ?_, fun x hcycle => ?_⟩, hfirst,
    fun b hb => ?_⟩
  · by_cases hmem : x ∈ l ++ new
    · rcases hchain.next_mem_or_end hmem with hmem' | hlast
      · exact .inr ⟨hchain.mem_in _ hmem', hchain.used hin hend hmem'⟩
      · exact .inl hlast
    · rw [hsame x hx hmem] at hused ⊢
      refine (h.closed x hx hused).imp_right fun ⟨hz, hzused⟩ => ⟨hz, ?_⟩
      rwa [hsame _ hz (hinto x hx hmem)]
  · by_cases hmem : x ∈ l ++ new
    · by_cases hmem' : y ∈ l ++ new
      · exact hchain.next_inj hne hmem hmem' hz heq
      · rw [hsame y hy hmem'] at heq
        have hmem'' := (hchain.next_mem_or_end hmem).resolve_right (hne hz)
        exact absurd (heq ▸ hmem'') (hinto y hy hmem')
    · rw [hsame x hx hmem] at heq hz
      by_cases hmem' : y ∈ l ++ new
      · have hmem'' := (hchain.next_mem_or_end hmem').resolve_right (hne (heq ▸ hz))
        exact absurd (heq ▸ hmem'') (hinto x hx hmem)
      · rw [hsame y hy hmem'] at heq
        exact h.inj x y hx hy hz heq
  · obtain ⟨y, ⟨hx, hy, hxy⟩, -⟩ := Relation.TransGen.head'_iff.1 hcycle
    have hm : ∃ m, Chain next' In End x m := by
      by_cases hmem : x ∈ l ++ new
      · obtain ⟨m, hm, -⟩ := hchain.of_mem hmem
        exact ⟨m, hm⟩
      · refine h.chain_outside hin hend hfin hinto hsame hx hmem fun hfree => ?_
        rw [← hsame x hx hmem, hxy] at hfree
        exact hin (hfree ▸ hy)
    obtain ⟨m, hm⟩ := hm
    exact hm.not_cycle hne hcycle
  · rcases hb.notMem_or_eq hold hnew with hout | rfl
    · exact hb.outside hne hchain hsame hout
    · exact hfirst

end

/-! ## Walks that come back -/

/-- The walk from `a` comes back to a cell where it has been, and everything it visits until then
passes. -/
def Circles (next : α → α) (Pass : α → Prop) (a : α) : Prop :=
  ∃ i p, 0 < p ∧ next^[i + p] a = next^[i] a ∧ ∀ k < i + p, Pass (next^[k] a)

/-- When only finitely many cells pass, a walk on which everything passes comes back. -/
theorem circles_iff {Pass : α → Prop} (hfin : {x | Pass x}.Finite) :
    Circles next Pass a ↔ ∀ n, Pass (next^[n] a) := by
  constructor
  · rintro ⟨i, p, hp, hback, hpass⟩ n
    induction n using Nat.strong_induction_on with
    | _ n ih =>
      by_cases hn : n < i + p
      · exact hpass n hn
      · -- the cell of turn `n` is the one of turn `n - p`
        have hsame : next^[n] a = next^[n - p] a := by
          have hsplit : n = (n - (i + p)) + (i + p) := by omega
          have hsplit' : n - p = (n - (i + p)) + i := by omega
          rw [hsplit', Function.iterate_add_apply, ← hback, ← Function.iterate_add_apply, ← hsplit]
        rw [hsame]
        exact ih (n - p) (by omega)
  · intro hpass
    obtain ⟨i, j, hij, heq⟩ := hfin.exists_lt_map_eq_of_forall_mem hpass
    refine ⟨i, j - i, by omega, ?_, fun k _ => hpass k⟩
    rw [show i + (j - i) = j by omega]
    exact heq.symm

end Chain
