import OsArm.Vfs.Routing

/-!
# Innermost mounts (`find_mount` in `vfs.c`)

`find_mount` takes the longest mount path whose characters the path begins with, and for the root
the mount that was made first.

* `MountCovers` — a mount path that ends where a component of the path ends.
* `InnermostMount` — the mount with the longest path among those that cover the path.
* `bestMount_spec` — what the loop finds.
* `innermostMount_iff` — `find_mount` returns the innermost mount exactly where `MountsFit` holds.
-/

namespace OsArm

/-- A mount path covers the root's paths, its own, and those below it. -/
def MountCovers (mount path : Str) : Prop :=
  mount = [slash] ∨ path = mount ∨ mount ++ [slash] <+: path

/-- **The innermost mount** of a path; `none` when no mount covers it. -/
structure InnermostMount (mounts : List Mount) (path : Str) (r : Option Mount) : Prop where
  none_iff : r = none ↔ ∀ m ∈ mounts, ¬ MountCovers m.path path
  longest : ∀ m, r = some m → m ∈ mounts ∧ MountCovers m.path path ∧
    ∀ m' ∈ mounts, MountCovers m'.path path → m'.path.length ≤ m.path.length

/-- **The condition**: for the root, the first mount is at the root; for any other path, a mount
whose characters it merely begins with lies above one that covers it. -/
def MountsFit (mounts : List Mount) (path : Str) : Prop :=
  if path = [slash] then ∀ m, mounts.head? = some m → m.path = [slash]
  else ∀ m ∈ mounts, m.path <+: path → ¬ MountCovers m.path path →
    ∃ m' ∈ mounts, MountCovers m'.path path ∧ m.path.length < m'.path.length

section Mounts

variable {mounts : List Mount} {path : Str}

theorem MountCovers.isPrefix {mount : Str} (h : MountCovers mount path)
    (hpath : path.head? = some slash) : mount <+: path := by
  rcases h with rfl | rfl | h
  · exact prefix_slash_iff.2 hpath
  · exact List.prefix_refl _
  · exact (List.prefix_append _ _).trans h

/-- **The loop**: nothing is longer than what it began with, or it finds the longest of the mount
paths that the path begins with. -/
theorem bestMount_spec (path : Str) (hnul : ∀ m ∈ mounts, NulFree m.path) (best : Option Mount)
    (bestLen : Nat) :
    (bestMount path mounts best bestLen = best ∧
        ∀ m ∈ mounts, m.path <+: path → m.path.length ≤ bestLen) ∨
      ∃ m ∈ mounts, bestMount path mounts best bestLen = some m ∧ m.path <+: path ∧
        bestLen < m.path.length ∧ ∀ m' ∈ mounts, m'.path <+: path →
          m'.path.length ≤ m.path.length := by
  induction mounts generalizing best bestLen with
  | nil => exact Or.inl ⟨rfl, fun m hm => by cases hm⟩
  | cons m mounts ih =>
    have hcmp : strncmp path m.path m.path.length = 0 ↔ m.path <+: path :=
      strncmp_eq_zero_iff (hnul m List.mem_cons_self)
    have htail : ∀ m' ∈ mounts, NulFree m'.path :=
      fun m' hm' => hnul m' (List.mem_cons_of_mem m hm')
    simp only [bestMount, hcmp]
    by_cases hbetter : m.path <+: path ∧ m.path.length > bestLen
    · rw [if_pos hbetter]
      refine Or.inr ?_
      rcases ih htail (some m) m.path.length with ⟨heq, hle⟩ | ⟨n, hn, heq, hpre, hlt, hle⟩
      · refine ⟨m, List.mem_cons_self, heq, hbetter.1, hbetter.2, ?_⟩
        exact List.forall_mem_cons.2 ⟨fun _ => Nat.le_refl _, hle⟩
      · refine ⟨n, List.mem_cons_of_mem m hn, heq, hpre, by omega, ?_⟩
        exact List.forall_mem_cons.2 ⟨fun _ => Nat.le_of_lt hlt, hle⟩
    · rw [if_neg hbetter]
      have hm : m.path <+: path → m.path.length ≤ bestLen := by
        intro hpre
        by_contra hlt
        exact hbetter ⟨hpre, Nat.not_le.1 hlt⟩
      rcases ih htail best bestLen with ⟨heq, hle⟩ | ⟨n, hn, heq, hpre, hlt, hle⟩
      · exact Or.inl ⟨heq, List.forall_mem_cons.2 ⟨hm, hle⟩⟩
      · refine Or.inr ⟨n, List.mem_cons_of_mem m hn, heq, hpre, hlt, ?_⟩
        exact List.forall_mem_cons.2 ⟨fun hp => Nat.le_trans (hm hp) (Nat.le_of_lt hlt), hle⟩

/-- Only the mount at the root covers the root. -/
theorem mountCovers_root {mount : Str} (habs : mount.head? = some slash) :
    MountCovers mount [slash] ↔ mount = [slash] := by
  constructor
  · rintro (h | h | h)
    · exact h
    · exact h.symm
    · have hlen := h.length_le
      simp only [List.length_append, List.length_singleton] at hlen
      have hnil : mount = [] := List.length_eq_zero_iff.1 (by omega)
      rw [hnil] at habs
      cases habs
  · exact Or.inl

/-- `find_mount` on the root is the first mount. -/
theorem innermostMount_root (habs : ∀ m ∈ mounts, m.path.head? = some slash) :
    InnermostMount mounts [slash] (findMount mounts [slash]) ↔
      ∀ m, mounts.head? = some m → m.path = [slash] := by
  rw [findMount, if_pos (Or.inr rfl)]
  cases mounts with
  | nil =>
    refine iff_of_true ⟨iff_of_true rfl fun m hm => ?_, fun m hm => ?_⟩ fun m hm => ?_ <;> cases hm
  | cons m mounts =>
    have hm := mountCovers_root (habs m List.mem_cons_self)
    rw [List.head?_cons]
    constructor
    · rintro ⟨-, hlongest⟩ n hn
      rw [← Option.some.inj hn]
      exact hm.1 (hlongest m rfl).2.1
    · intro hroot
      have hcovers : MountCovers m.path [slash] := Or.inl (hroot m rfl)
      refine ⟨iff_of_false (by simp) fun hno => hno m List.mem_cons_self hcovers, ?_⟩
      intro n hn
      rw [← Option.some.inj hn]
      refine ⟨List.mem_cons_self, hcovers, ?_⟩
      intro m' hm' hcovers'
      rw [(mountCovers_root (habs m' hm')).1 hcovers', hroot m rfl]

/-- **When `find_mount` returns the innermost mount.**  For every table of absolute mount paths, in
any order, and every absolute path. -/
theorem innermostMount_iff (hnul : ∀ m ∈ mounts, NulFree m.path)
    (habs : ∀ m ∈ mounts, m.path.head? = some slash) (hpath : path.head? = some slash) :
    InnermostMount mounts path (findMount mounts path) ↔ MountsFit mounts path := by
  unfold MountsFit
  by_cases hroot : path = [slash]
  · rw [if_pos hroot, hroot]
    exact innermostMount_root habs
  · have hne : ¬ (path = [] ∨ path = [slash]) := by
      rintro (rfl | h)
      · cases hpath
      · exact hroot h
    rw [if_neg hroot, findMount, if_neg hne]
    rcases bestMount_spec path hnul none 0 with ⟨heq, hle⟩ | ⟨n, hn, heq, hpre, -, hle⟩
    · -- the path begins with no mount path
      have hno : ∀ m ∈ mounts, ¬ m.path <+: path := by
        intro m hm hpre
        have hhead := habs m hm
        have hzero := hle m hm hpre
        rw [List.length_eq_zero_iff.1 (Nat.le_zero.1 hzero)] at hhead
        cases hhead
      rw [heq]
      refine iff_of_true ⟨iff_of_true rfl fun m hm hcovers => ?_, fun m hm => by cases hm⟩
        fun m hm hpre => absurd hpre (hno m hm)
      exact hno m hm (hcovers.isPrefix hpath)
    · rw [heq]
      constructor
      · rintro ⟨-, hlongest⟩ m hm hpre' hcovers
        obtain ⟨hmem, hncovers, -⟩ := hlongest n rfl
        refine ⟨n, hmem, hncovers, Nat.lt_of_le_of_ne (hle m hm hpre') fun hlen => hcovers ?_⟩
        -- beginnings of one length are one path
        have hsame : m.path = n.path := by
          rw [List.prefix_iff_eq_take.1 hpre', List.prefix_iff_eq_take.1 hpre, hlen]
        rwa [hsame]
      · intro hfit
        have hncovers : MountCovers n.path path := by
          by_contra hcovers
          obtain ⟨m', hm', hcovers', hlt⟩ := hfit n hn hpre hcovers
          have hle' := hle m' hm' (hcovers'.isPrefix hpath)
          omega
        refine ⟨iff_of_false (by simp) fun hno => hno n hn hncovers, ?_⟩
        intro m hm
        rw [← Option.some.inj hm]
        exact ⟨hn, hncovers, fun m' hm' hcovers' => hle m' hm' (hcovers'.isPrefix hpath)⟩

end Mounts

/-- With the mounts of `vfs_init`, `/tmp/a` belongs to the mount at `/tmp`. -/
theorem innermostMount_iff_tmpA :
    InnermostMount bootMounts (tmpSlash ++ str ['a'])
      (findMount bootMounts (tmpSlash ++ str ['a'])) := by
  refine (innermostMount_iff ?_ ?_ rfl).2 ?_
  · unfold NulFree
    decide
  · decide
  · have hne : ¬ tmpSlash ++ str ['a'] = [slash] := by decide
    unfold MountsFit
    rw [if_neg hne]
    intro m hm _ hcovers
    refine absurd ?_ hcovers
    rcases List.mem_cons.1 hm with rfl | hm
    · exact Or.inl rfl
    · rw [List.mem_singleton.1 hm]
      exact Or.inr (Or.inr ⟨str ['a'], rfl⟩)

/-- **`/tmpx` is sent to RAMFS**, which is mounted at `/tmp`; it lies in the root. -/
theorem lookalike_mounted :
    findMount bootMounts (tmpDir ++ str ['x']) = some { path := tmpDir, fs := .ramfs } ∧
      ¬ MountCovers tmpDir (tmpDir ++ str ['x']) ∧
      ¬ InnermostMount bootMounts (tmpDir ++ str ['x'])
        (findMount bootMounts (tmpDir ++ str ['x'])) := by
  have hfind : findMount bootMounts (tmpDir ++ str ['x']) =
      some { path := tmpDir, fs := .ramfs } := by
    decide
  have hcovers : ¬ MountCovers tmpDir (tmpDir ++ str ['x']) := by
    unfold MountCovers
    decide
  refine ⟨hfind, hcovers, fun h => hcovers ?_⟩
  exact (h.longest _ hfind).2.1

end OsArm
