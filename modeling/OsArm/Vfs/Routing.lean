import OsArm.Vfs.Basic

/-!
# Which file system a path leads to

With the two mounts of `vfs_init`, the six entry points of `vfs.c` that take a
path are compared.

* `findMount_boot` — the mount a path belongs to.
* `EntryPointsAgree` — all six select one file system for one absolute path.
* `entryPointsAgree_iff` — they do so exactly for absolute paths that do not begin
  with `"/tmp"`: RAMFS has no `remove_recursive`.
-/

namespace OsArm

theorem strncmp_tmpSlash {s : Str} : strncmp s tmpSlash 5 = 0 ↔ tmpSlash <+: s :=
  strncmp_eq_zero_iff (p := tmpSlash) (by unfold NulFree; decide)

theorem strncmp_tmpDir {s : Str} : strncmp s tmpDir tmpDir.length = 0 ↔ tmpDir <+: s :=
  strncmp_eq_zero_iff (by unfold NulFree; decide)

theorem prefix_slash_iff {s : Str} : [slash] <+: s ↔ s.head? = some slash := by
  cases s with
  | nil => simp
  | cons c cs =>
    rw [List.cons_prefix_cons, List.head?_cons, Option.some_inj]
    exact ⟨fun h => h.1.symm, fun h => ⟨h.symm, List.nil_prefix⟩⟩

theorem strncmp_slash {s : Str} : strncmp s [slash] [slash].length = 0 ↔ s.head? = some slash := by
  rw [strncmp_eq_zero_iff (by unfold NulFree; decide), prefix_slash_iff]

/-- `"/tmp"` is a prefix of everything below it, and begins with a slash. -/
theorem tmpDir_prefix_of_tmpSlash {s : Str} (h : tmpSlash <+: s) : tmpDir <+: s := by
  have hdir : tmpDir <+: tmpSlash := ⟨[slash], rfl⟩
  exact hdir.trans h

theorem head_of_tmpDir {s : Str} (h : tmpDir <+: s) : s.head? = some slash := by
  have hslash : [slash] <+: tmpDir := ⟨str ['t', 'm', 'p'], rfl⟩
  exact prefix_slash_iff.1 (hslash.trans h)

/-- **`find_mount` with the mounts of `vfs_init`**: RAMFS for what begins with
`"/tmp"`, AbyssFS for every other absolute path. -/
theorem findMount_boot (s : Str) : (findMount bootMounts s).map Mount.fs =
    if tmpDir <+: s then some .ramfs
    else if s = [] ∨ s.head? = some slash then some .abyssfs
    else none := by
  by_cases hroot : s = [] ∨ s = [slash]
  · have hno : ¬ tmpDir <+: s := by
      intro h
      have := h.length_le
      rcases hroot with rfl | rfl
      · simp [tmpDir, str] at this
      · simp [tmpDir, str] at this
    have habs : s = [] ∨ s.head? = some slash := by
      rcases hroot with rfl | rfl
      · exact Or.inl rfl
      · exact Or.inr rfl
    rw [findMount, if_pos hroot, if_neg hno, if_pos habs]
    rfl
  · have hne : s ≠ [] := fun h => hroot (Or.inl h)
    have hlen : tmpDir.length = 4 := rfl
    rw [findMount, if_neg hroot]
    by_cases htmp : tmpDir <+: s
    · have habs := head_of_tmpDir htmp
      rw [if_pos htmp]
      simp only [bootMounts, bestMount]
      rw [if_pos ⟨strncmp_slash.2 habs, by simp⟩, if_pos ⟨strncmp_tmpDir.2 htmp, by simp [hlen]⟩]
      rfl
    · rw [if_neg htmp]
      simp only [bootMounts, bestMount]
      by_cases habs : s.head? = some slash
      · rw [if_pos ⟨strncmp_slash.2 habs, by simp⟩, if_neg fun h => htmp (strncmp_tmpDir.1 h.1),
          if_pos (Or.inr habs)]
        rfl
      · rw [if_neg fun h => habs (strncmp_slash.1 h.1), if_neg fun h => htmp (strncmp_tmpDir.1 h.1),
          if_neg]
        · rfl
        · rintro (h | h)
          · exact hne h
          · exact habs h

/-- The entry points but `vfs_remove_recursive` select `fs` and pass it `target`.
There are no bindings; `heap` and `before` are what `resolve_namespace_path`
would use for one. -/
structure Selects (heap : Heap) (before : UInt8) (cwd path : Str) (fs : FsType)
    (target : Str) : Prop where
  create : createTarget bootMounts cwd path = some (fs, target)
  openPath : openTarget [] path = (fs, target)
  unlink : unlinkTarget bootMounts cwd path = some (fs, target)
  mkdir : mkdirTarget bootMounts cwd path = some (fs, target)
  readDir : readDirTarget bootMounts (resolveNamespacePath before heap path []).1 =
    some (fs, target)

/-- All six do. -/
structure AllSelect (heap : Heap) (before : UInt8) (cwd path : Str) (fs : FsType)
    (target : Str) : Prop extends Selects heap before cwd path fs target where
  removeRecursive : removeRecursiveTarget bootMounts cwd path = some (fs, target)

/-- All six entry points select one file system, for the path joined with `cwd`. -/
def EntryPointsAgree (heap : Heap) (before : UInt8) (cwd path : Str) : Prop :=
  ∃ fs, AllSelect heap before cwd path fs (joinCwd cwd path)

/-- What an entry point selects through `find_mount`, for a path of its own choice. -/
theorem map_findMount {s p : Str} :
    ((findMount bootMounts s).map fun mp => (mp.fs, p)) =
      ((findMount bootMounts s).map Mount.fs).map fun fs => (fs, p) := by
  rw [Option.map_map]
  rfl

/-- `vfs_remove_recursive` hands on a path only where it is AbyssFS's. -/
theorem removeRecursiveTarget_boot {cwd path : Str} :
    removeRecursiveTarget bootMounts cwd path =
      if (findMount bootMounts (joinCwd cwd path)).map Mount.fs = some .abyssfs then
        some (.abyssfs, joinCwd cwd path)
      else none := by
  unfold removeRecursiveTarget
  dsimp only
  cases findMount bootMounts (joinCwd cwd path) with
  | none => rfl
  | some mp =>
    obtain ⟨mountPath, fs⟩ := mp
    cases fs <;> simp [FsType.hasRemoveRecursive]

theorem joinCwd_of_absolute {cwd path : Str} (h : path.head? = some slash) :
    joinCwd cwd path = path := by
  rw [joinCwd, if_neg (by simp [h])]

/-- Below `"/tmp/"` everything is RAMFS, which cannot remove recursively. -/
theorem selects_tmp {heap : Heap} {before : UInt8} {cwd path : Str} (h : tmpSlash <+: path) :
    Selects heap before cwd path .ramfs path := by
  have hdir := tmpDir_prefix_of_tmpSlash h
  have hjoin : joinCwd cwd path = path := joinCwd_of_absolute (head_of_tmpDir hdir)
  have hcmp := strncmp_tmpSlash.2 h
  constructor
  all_goals
    simp [createTarget, openTarget, unlinkTarget, mkdirTarget, readDirTarget,
      resolveNamespacePath, resolvePath, hjoin, map_findMount, findMount_boot, hcmp, hdir]

/-- Absolute paths that do not begin with `"/tmp"` are AbyssFS. -/
theorem allSelect_root {heap : Heap} {before : UInt8} {cwd path : Str}
    (habs : path.head? = some slash) (h : ¬ tmpDir <+: path) :
    AllSelect heap before cwd path .abyssfs path := by
  have hjoin : joinCwd cwd path = path := joinCwd_of_absolute habs
  have hcmp : ¬ strncmp path tmpSlash 5 = 0 :=
    fun h' => h (tmpDir_prefix_of_tmpSlash (strncmp_tmpSlash.1 h'))
  have hpath : path ≠ tmpDir := by
    rintro rfl
    exact h (List.prefix_refl _)
  refine ⟨?_, ?_⟩
  · constructor
    all_goals
      simp [createTarget, openTarget, unlinkTarget, mkdirTarget, readDirTarget,
        resolveNamespacePath, resolvePath, hjoin, map_findMount, findMount_boot,
          hcmp, hpath, h, habs]
  · simp [removeRecursiveTarget_boot, hjoin, findMount_boot, h, habs]

/-- **Agreement of the entry points.**  They agree on a path exactly when it is
absolute and does not begin with `"/tmp"`. -/
theorem entryPointsAgree_iff (heap : Heap) (before : UInt8) (cwd path : Str) :
    EntryPointsAgree heap before cwd path ↔ path.head? = some slash ∧ ¬ tmpDir <+: path := by
  constructor
  · rintro ⟨fs, ⟨-, hopen, -, -, hread⟩, hremove⟩
    -- `vfs_open` passes the path on as it is, so joining has changed nothing
    have hjoin : joinCwd cwd path = path := (congrArg Prod.snd hopen).symm
    have hmount : (findMount bootMounts path).map Mount.fs = some fs := by
      have h := congrArg (Option.map Prod.fst) hread
      rwa [resolveNamespacePath, readDirTarget, Option.map_map, Option.map_some] at h
    -- and `vfs_remove_recursive` that it is for AbyssFS
    rw [removeRecursiveTarget_boot, hjoin] at hremove
    have habyss : (findMount bootMounts path).map Mount.fs = some .abyssfs := by
      by_contra hno
      rw [if_neg hno] at hremove
      cases hremove
    rw [findMount_boot] at habyss
    have htmp : ¬ tmpDir <+: path := by
      intro h
      rw [if_pos h] at habyss
      cases habyss
    refine ⟨?_, htmp⟩
    by_contra hrel
    have hne : path ≠ [] := by
      rintro rfl
      rw [joinCwd, if_pos (by simp), List.append_nil] at hjoin
      split at hjoin
      · simp at hjoin
      · next h =>
        rw [hjoin] at h
        exact h (by simp)
    rw [if_neg htmp, if_neg] at habyss
    · cases habyss
    · rintro (h | h)
      · exact hne h
      · exact hrel h
  · rintro ⟨habs, htmp⟩
    rw [EntryPointsAgree, joinCwd_of_absolute habs]
    exact ⟨.abyssfs, allSelect_root habs htmp⟩

/-- In `"/"`, creating `a` reaches AbyssFS and listing it reaches nothing;
`"/tmp"` is opened in AbyssFS and listed in RAMFS; `unlink` in `"/tmp"` hands `a`
to RAMFS as it is; and `/tmp/a` is created in RAMFS, while removing it
recursively reaches nothing. -/
theorem entryPoints_disagree :
    createTarget bootMounts [slash] (str ['a']) = some (.abyssfs, str ['/', 'a']) ∧
      readDirTarget bootMounts (str ['a']) = none ∧
      openTarget [] tmpDir = (.abyssfs, tmpDir) ∧
      readDirTarget bootMounts tmpDir = some (.ramfs, tmpDir) ∧
      unlinkTarget bootMounts tmpDir (str ['a']) = some (.ramfs, str ['a']) ∧
      createTarget bootMounts [slash] (tmpSlash ++ str ['a']) =
        some (.ramfs, tmpSlash ++ str ['a']) ∧
      removeRecursiveTarget bootMounts [slash] (tmpSlash ++ str ['a']) = none ∧
      ¬ EntryPointsAgree (Heap.mk 0) 0 [slash] (str ['a']) ∧
      ¬ EntryPointsAgree (Heap.mk 0) 0 [slash] tmpDir ∧
      ¬ EntryPointsAgree (Heap.mk 0) 0 [slash] (tmpSlash ++ str ['a']) := by
  have hnone : removeRecursiveTarget bootMounts [slash] (tmpSlash ++ str ['a']) = none := by decide
  refine ⟨by decide, by decide, by decide, by decide, by decide, by decide, hnone, ?_, ?_, ?_⟩
  · rintro ⟨fs, ⟨-, -, -, -, hread⟩, -⟩
    have hnone : readDirTarget bootMounts (str ['a']) = none := by decide
    rw [resolveNamespacePath, hnone] at hread
    cases hread
  · rintro ⟨fs, ⟨-, hopen, -, -, hread⟩, -⟩
    have habyss : openTarget [] tmpDir = (.abyssfs, tmpDir) := by decide
    have hram : readDirTarget bootMounts tmpDir = some (.ramfs, tmpDir) := by decide
    rw [habyss] at hopen
    rw [resolveNamespacePath, hram] at hread
    cases hopen
    cases hread
  · rintro ⟨fs, -, hremove⟩
    rw [hnone] at hremove
    cases hremove

end OsArm
