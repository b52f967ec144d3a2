import RossOs.Ramfs
import RossOs.Shell

/-!
# `cd` in the shell

`resolve` and `cmd_cd` in `ross-kernel/src/shell.rs`. The working directory lives in a buffer of 64
bytes, and `cmd_cd` cuts a longer path off without a word. `cd_law_iff`: over a session of `cd`
commands the working directory is what the last successful one resolved to, exactly when no
directory with a longer path is opened on the way.
-/

namespace RossOs

open ByteMem Ahci Fat

/-- `attribute().node_type` is `Directory`. -/
def Node.isDirectory : Node → Bool
  | .tarFile _ => false
  | .tarFileSystem _ => true
  | .fat32 _ node => node.isDir

namespace Shell

/-- `MAX_CWD`. -/
def maxCwd : ℕ := 64

/-- `CWD_BUF` and `CWD_LEN`. -/
structure Cwd where
  buf : List UInt8
  len : ℕ
  length_buf : buf.length = maxCwd
  len_le : len ≤ maxCwd

namespace Cwd

/-- `CWD_BUF[..CWD_LEN]`. -/
def bytes (c : Cwd) : List UInt8 := c.buf.take c.len

/-- The buffer keeps its length. -/
theorem length_store (c : Cwd) (path : List UInt8) :
    (splice c.buf 0 (path.take maxCwd)).length = maxCwd := by
  rw [length_splice, c.length_buf]
  rw [c.length_buf, Nat.zero_add]
  exact List.length_take_le _ _

/-- The buffer after a path was copied into it, as far as there is room. -/
def store (c : Cwd) (path : List UInt8) : Cwd where
  buf := splice c.buf 0 (path.take maxCwd)
  len := min path.length maxCwd
  length_buf := c.length_store path
  len_le := Nat.min_le_right _ _

/-- A path is stored up to the length of the buffer. -/
theorem bytes_store (c : Cwd) (path : List UInt8) : (c.store path).bytes = path.take maxCwd := by
  have hlen : (path.take maxCwd).length = min path.length maxCwd := by
    rw [List.length_take, Nat.min_comm]
  simp only [bytes, store]
  rw [splice, List.take_zero, List.nil_append, List.take_left' hlen]

end Cwd

/-- The path that names the disk, the working directory at the start. -/
def diskPath : List Char := ['/', 'm', 'n', 't', '/', 'd', 'i', 's', 'k']

/-- The buffer at the start. -/
def Cwd.initial : Cwd where
  buf := utf8 diskPath ++ List.replicate 55 0
  len := 9
  length_buf := by decide
  len_le := by decide

/-- A relative path behind a directory's. -/
def join (dir path : List Char) : List Char :=
  (if dir.getLast? = some '/' then dir else dir ++ ['/']) ++ path

/-- `resolve`. There is no result where the buffer is not in UTF-8, which the language leaves
undefined. -/
def resolve (path : List Char) (c : Cwd) : Option (List Char) :=
  if path.head? = some '/' then some path
  else (fromUtf8 c.bytes).map (join · path)

/-- The working directory, and the drive. -/
structure State where
  cwd : Cwd
  disk : Disk

/-- The state at the start. -/
def State.initial (d : Disk) : State := ⟨.initial, d⟩

section
variable (vfs : VfsRoot) (fuel : ℕ)

/-- `cmd_cd`, with the message that it prints as an error. -/
def cmdCd (raw : List Char) : Exec String State PUnit := do
  let s ← get
  match resolve raw s.cwd with
  | none => throw .outOfBounds
  | some path =>
    let found ← Exec.zoom State.disk (fun d s => { s with disk := d })
      (Exec.attempt (vfs.openPath fuel path))
    match found with
    | .ok node =>
      if node.isDirectory then modify fun s => { s with cwd := s.cwd.store (utf8 path) }
      else Exec.fail "  Error: not a directory\n"
    | .error _ => Exec.fail "  Error: no such path\n"

/-- One command of a session. -/
def cd (s : State) (raw : List Char) : State := Exec.Outcome.state (cmdCd vfs fuel raw s)

/-- `open` finds a directory under the path. -/
def Accepts (d : Disk) (path : List Char) : Prop :=
  ∃ node, vfs.openPath fuel path d = .ok node d ∧ node.isDirectory = true

/-- The command `cd raw` takes `s` to `s'`, where its path is the working directory if it was
accepted, relative names lead below it, and nothing has changed if it was not. -/
def Follows (s : State) (raw : List Char) (s' : State) : Prop :=
  ∃ path, resolve raw s.cwd = some path ∧
    (Accepts vfs fuel s.disk path → s'.cwd.bytes = utf8 path ∧
      ∀ name, name.head? ≠ some '/' → resolve name s'.cwd = some (join path name)) ∧
    (¬ Accepts vfs fuel s.disk path → s'.cwd = s.cwd)

/-- The working directory is a path under which `open` finds a directory. -/
def Names (s : State) : Prop := ∃ path, s.cwd.bytes = utf8 path ∧ Accepts vfs fuel s.disk path

/-- The path of `cd raw`, if it is accepted, has room in the buffer. -/
def Short (s : State) (raw : List Char) : Prop :=
  ∀ path, resolve raw s.cwd = some path → Accepts vfs fuel s.disk path →
    (utf8 path).length ≤ maxCwd

end

section
variable {vfs : VfsRoot} {fuel : ℕ} {s : State} {raw path : List Char} {d : Disk}

/-! ## One command -/

/-- A relative name is resolved below the working directory. -/
theorem resolve_of_bytes {c : Cwd} (h : c.bytes = utf8 path) {name : List Char}
    (hname : name.head? ≠ some '/') : resolve name c = some (join path name) := by
  rw [resolve, if_neg hname, h, fromUtf8_eq_some.2 rfl, Option.map_some]

/-- A path always resolves while the buffer holds one. -/
theorem resolve_eq_some {c : Cwd} (h : c.bytes = utf8 path) (raw : List Char) :
    ∃ path', resolve raw c = some path' := by
  by_cases hraw : raw.head? = some '/'
  · exact ⟨raw, if_pos hraw⟩
  · exact ⟨_, resolve_of_bytes h hraw⟩

/-- `cmd_cd` on a path that is accepted. -/
theorem cd_of_accepts (hpath : resolve raw s.cwd = some path) (h : Accepts vfs fuel s.disk path) :
    cd vfs fuel s raw = { s with cwd := s.cwd.store (utf8 path) } := by
  obtain ⟨node, hopen, hdir⟩ := h
  have hattempt : (Exec.attempt (vfs.openPath fuel path) : Exec String Disk _) s.disk =
      .ok (.ok node) s.disk := by
    rw [Exec.attempt, hopen]
  rw [cd, cmdCd, Exec.bind_of_ok (Exec.get_apply s)]
  simp only [hpath]
  rw [Exec.bind_of_ok (Exec.zoom_of_ok hattempt)]
  simp only [hdir, if_true, Exec.modify_apply]
  rfl

/-- `cmd_cd` on a path that is not. -/
theorem cd_of_not_accepts (hpath : resolve raw s.cwd = some path)
    (h : ¬ Accepts vfs fuel s.disk path) : cd vfs fuel s raw = s := by
  rw [cd, cmdCd, Exec.bind_of_ok (Exec.get_apply s)]
  simp only [hpath]
  rcases (openPath_readOnly vfs fuel path).outcome s.disk with ⟨node, hopen⟩ | ⟨e, hopen⟩
  · have hattempt : (Exec.attempt (vfs.openPath fuel path) : Exec String Disk _) s.disk =
        .ok (.ok node) s.disk := by
      rw [Exec.attempt, hopen]
    rw [Exec.bind_of_ok (Exec.zoom_of_ok hattempt)]
    simp only [if_neg fun hdir => h ⟨node, hopen, hdir⟩, Exec.fail_apply]
    rfl
  · cases e with
    | err e =>
      have hattempt : (Exec.attempt (vfs.openPath fuel path) : Exec String Disk _) s.disk =
          .ok (.error e) s.disk := by
        rw [Exec.attempt, hopen]
      rw [Exec.bind_of_ok (Exec.zoom_of_ok hattempt)]
      rfl
    | panic | outOfBounds | fuel =>
      rw [Exec.bind_of_error (Exec.zoom_of_error (by rw [Exec.attempt, hopen]))]
      rfl

/-- `cd` leaves the drive. -/
theorem disk_cd (s : State) (raw : List Char) : (cd vfs fuel s raw).disk = s.disk := by
  cases hpath : resolve raw s.cwd with
  | none =>
    rw [cd, cmdCd, Exec.bind_of_ok (Exec.get_apply s)]
    simp only [hpath]
    rfl
  | some path =>
    by_cases h : Accepts vfs fuel s.disk path
    · rw [cd_of_accepts hpath h]
    · rw [cd_of_not_accepts hpath h]

/-- A command keeps to the law exactly when the path that it stores has room. -/
theorem follows_iff_short (hs : Names vfs fuel s) :
    (Follows vfs fuel s raw (cd vfs fuel s raw) ∧ Names vfs fuel (cd vfs fuel s raw)) ↔
      Short vfs fuel s raw := by
  obtain ⟨dir, hbytes, hdir⟩ := hs
  obtain ⟨path, hpath⟩ := resolve_eq_some hbytes raw
  by_cases h : Accepts vfs fuel s.disk path
  · have hcd := cd_of_accepts hpath h
    have hstored : (cd vfs fuel s raw).cwd.bytes = (utf8 path).take maxCwd := by
      rw [hcd, Cwd.bytes_store]
    constructor
    · rintro ⟨⟨path', hpath', hacc, -⟩, -⟩ path'' hpath'' -
      cases hpath.symm.trans hpath'
      cases hpath.symm.trans hpath''
      have hlen := congrArg List.length ((hacc h).1.symm.trans hstored)
      rw [List.length_take] at hlen
      omega
    · intro hshort
      rw [List.take_of_length_le (hshort path hpath h)] at hstored
      refine ⟨⟨path, hpath, fun _ => ⟨hstored, fun name hname => ?_⟩, fun hnot => absurd h hnot⟩,
        path, hstored, ?_⟩
      · exact resolve_of_bytes hstored hname
      · rwa [disk_cd]
  · have hcd := cd_of_not_accepts hpath h
    rw [hcd]
    have hkept : Follows vfs fuel s raw s := ⟨path, hpath, fun hacc => absurd hacc h, fun _ => rfl⟩
    refine iff_of_true ⟨hkept, dir, hbytes, hdir⟩ ?_
    intro path' hpath' hacc
    cases hpath.symm.trans hpath'
    exact absurd hacc h

/-! ## A session -/

/-- At boot the working directory is that of the drive. -/
theorem bytes_initial : Cwd.initial.bytes = utf8 diskPath := by decide

/-- It is one, if `open` finds it. -/
theorem names_initial : Names vfs fuel (.initial d) ↔ Accepts vfs fuel d diskPath := by
  constructor
  · rintro ⟨path, hbytes, hacc⟩
    rwa [← utf8_injective (bytes_initial.symm.trans hbytes)] at hacc
  · exact fun hacc => ⟨diskPath, bytes_initial, hacc⟩

/-- In a session of `cd` commands the working directory is always the directory that was accepted
last, exactly when the disk is there and no longer path is accepted. -/
theorem cd_law_iff (vfs : VfsRoot) (fuel : ℕ) (d : Disk) (l : List (List Char)) :
    (Names vfs fuel (.initial d) ∧ Run.Guarded (cd vfs fuel) (fun s raw =>
      Follows vfs fuel s raw (cd vfs fuel s raw) ∧ Names vfs fuel (cd vfs fuel s raw))
        (.initial d) l) ↔
      Accepts vfs fuel d diskPath ∧
        Run.Guarded (cd vfs fuel) (Short vfs fuel) (.initial d) l := by
  rw [names_initial]
  refine and_congr_right fun hacc => ?_
  exact Run.guarded_congr (fun s raw hs => follows_iff_short hs) (fun s raw _ h => h.2)
    (names_initial.2 hacc)

/-! ## A long path -/

/-- The disk under a path of 65 bytes. -/
def longPath : List Char := List.replicate 57 '/' ++ diskPrefix

/-- The long path leads to the drive's root. -/
theorem accepts_longPath (d : Disk) : Accepts smallVfs 0 d longPath := by
  refine ⟨.fat32 smallFs smallFs.root, ?_, rfl⟩
  have htrim : trimSlashes longPath = diskPrefix := by decide
  rw [VfsRoot.openPath, htrim]
  rfl

/-- The last byte of the path is cut off. -/
theorem cd_longPath : ¬ ∀ (vfs : VfsRoot) (fuel : ℕ) (d : Disk) (l : List (List Char)),
    Names vfs fuel (.initial d) → Run.Guarded (cd vfs fuel) (fun s raw =>
      Follows vfs fuel s raw (cd vfs fuel s raw) ∧ Names vfs fuel (cd vfs fuel s raw))
        (.initial d) l := by
  intro h
  have hstart : Names smallVfs 0 (.initial emptyDisk) := by
    refine names_initial.2 ⟨.fat32 smallFs smallFs.root, ?_, rfl⟩
    have htrim : trimSlashes diskPath = diskPrefix := by decide
    rw [VfsRoot.openPath, htrim]
    rfl
  have hshort := (follows_iff_short hstart).1 (h smallVfs 0 emptyDisk [longPath] hstart).1
  exact absurd (hshort longPath (by decide) (accepts_longPath _)) (by decide)

end

end Shell

end RossOs
