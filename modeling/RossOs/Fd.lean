import RossOs.Vfs

/-!
# Descriptor tables

`ross-kernel/src/fd.rs`. A table always has its 64 slots. `FdTable.alloc_spec` and `get_set` are
what the system calls need of it.
-/

namespace RossOs

/-- `FD_MAX`. -/
def fdMax : ℕ := 64

/-- `FdEntry`. -/
inductive FdEntry
  | stdin
  | stdout
  | stderr
  | pipe (id : ℕ)
  | vfsFile (node : Node) (offset : ℕ)

/-- `FdTable`. -/
structure FdTable where
  slots : List (Option FdEntry)
  length_slots : slots.length = fdMax

namespace FdTable

/-- `FdTable::new`. -/
def new : FdTable := ⟨List.replicate fdMax none, List.length_replicate ..⟩

/-- The table with another entry in a slot. -/
def set (t : FdTable) (fd : ℕ) (e : Option FdEntry) : FdTable :=
  ⟨t.slots.set fd e, (List.length_set ..).trans t.length_slots⟩

/-- `FdTable::with_stdio`. -/
def withStdio : FdTable := ((new.set 0 (some .stdin)).set 1 (some .stdout)).set 2 (some .stderr)

/-- `FdTable::get`. -/
def get (t : FdTable) (fd : ℕ) : Option FdEntry := t.slots[fd]?.join

/-- `FdTable::alloc`. -/
def alloc (t : FdTable) (e : FdEntry) : Option ℕ × FdTable :=
  match (List.range' 3 (fdMax - 3)).find? fun i => (t.get i).isNone with
  | some i => (some i, t.set i (some e))
  | none => (none, t)

/-- `FdTable::close`. -/
def close (t : FdTable) (fd : ℕ) : Bool × FdTable :=
  if fd < fdMax ∧ (t.get fd).isSome then (true, t.set fd none) else (false, t)

section
variable {t : FdTable} {fd fd' : ℕ} {e : FdEntry}

/-- There is no descriptor from `fdMax` on. -/
theorem get_eq_none_of_le (h : fdMax ≤ fd) : t.get fd = none := by
  rw [get, List.getElem?_eq_none (t.length_slots.trans_le h)]
  rfl

/-- A descriptor that is open is below `fdMax`. -/
theorem lt_of_get (h : t.get fd = some e) : fd < fdMax := by
  by_contra hge
  rw [get_eq_none_of_le (not_lt.1 hge)] at h
  cases h

/-- A slot that was set has its new entry, and every other slot its old one. -/
theorem get_set (h : fd < fdMax) (x : Option FdEntry) (fd' : ℕ) :
    (t.set fd x).get fd' = if fd' = fd then x else t.get fd' := by
  rw [get, set]
  split
  case isTrue heq =>
    rw [heq, List.getElem?_set_self (t.length_slots.ge.trans_lt' h)]
    rfl
  case isFalse hne =>
    rw [List.getElem?_set_ne (Ne.symm hne)]
    rfl

/-- `alloc` takes a free slot from number 3 on; it fails only when all of them are taken. -/
theorem alloc_spec (t : FdTable) (e : FdEntry) :
    (∃ i, 3 ≤ i ∧ i < fdMax ∧ t.get i = none ∧ t.alloc e = (some i, t.set i (some e))) ∨
      (∀ i, 3 ≤ i → i < fdMax → t.get i ≠ none) ∧ t.alloc e = (none, t) := by
  cases hfind : (List.range' 3 (fdMax - 3)).find? fun i => (t.get i).isNone with
  | some i =>
    obtain ⟨h3, hlt⟩ := List.mem_range'_1.1 (List.mem_of_find?_eq_some hfind)
    have hnone := List.find?_some hfind
    refine .inl ⟨i, h3, hlt, Option.isNone_iff_eq_none.1 hnone, ?_⟩
    rw [alloc, hfind]
  | none =>
    refine .inr ⟨fun i h3 hlt hget => ?_, ?_⟩
    · refine List.find?_eq_none.1 hfind i (List.mem_range'_1.2 ⟨h3, hlt⟩) ?_
      rw [hget]
      rfl
    · rw [alloc, hfind]

/-- `close` empties a slot, or fails on one that is empty. -/
theorem close_spec (t : FdTable) (fd : ℕ) :
    (∃ e, t.get fd = some e ∧ t.close fd = (true, t.set fd none)) ∨
      t.get fd = none ∧ t.close fd = (false, t) := by
  cases hget : t.get fd with
  | some e =>
    refine .inl ⟨e, rfl, ?_⟩
    rw [close, hget, if_pos ⟨lt_of_get hget, rfl⟩]
  | none =>
    refine .inr ⟨rfl, ?_⟩
    rw [close, hget, if_neg (fun h => nomatch h.2)]

end

/-- The pipes a table refers to. -/
def pipes (t : FdTable) : List ℕ :=
  t.slots.filterMap fun x => x.bind fun e => match e with
    | .pipe id => some id
    | _ => none

/-- The pipes of a table are those of its descriptors. -/
theorem mem_pipes {t : FdTable} {id : ℕ} : id ∈ t.pipes ↔ ∃ fd, t.get fd = some (.pipe id) := by
  rw [pipes, List.mem_filterMap]
  constructor
  · rintro ⟨x, hx, heq⟩
    obtain ⟨fd, hfd⟩ := List.mem_iff_getElem?.1 hx
    refine ⟨fd, ?_⟩
    rw [get, hfd]
    cases x with
    | none => cases heq
    | some e =>
      cases e with
      | pipe id' =>
        obtain rfl : id' = id := Option.some.inj heq
        rfl
      | stdin | stdout | stderr | vfsFile => cases heq
  · rintro ⟨fd, hget⟩
    rw [get, Option.join_eq_some_iff] at hget
    exact ⟨some (.pipe id), List.mem_of_getElem? hget, rfl⟩

end FdTable

end RossOs
