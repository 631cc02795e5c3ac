import OsArm.Ram.Paths

/-!
# Listings of RAMFS

`is_file_in_dir` compares a prefix and the place of the last slash, with a branch of its own for
`"/tmp"`.

* `childName` — the name of a path in a directory.
* `isFileInDir_iff`, `lastSlashAt_iff` — both branches decide whether there is one.
* `readDirLoop_eq` — the loop of `ramfs_read_dir` stops where the room ends.
* `ramfs_listing_exact` — a listing shows the two dots and the children of the directory.
-/

namespace OsArm

/-- The name of the path `p` in the directory `d`: what is behind `d` and a slash, if that has no
slash. -/
def childName (d p : Str) : Option Str :=
  if d ++ [slash] <+: p ∧ slash ∉ p.drop (d.length + 1) then some (p.drop (d.length + 1)) else none

/-- The first two entries of every listing. -/
def ramDots : List Dirent :=
  [{ inode := 1, name := str ['.'] }, { inode := 1, name := str ['.', '.'] }]

/-- The test of the general branch of `is_file_in_dir`, without the one for the prefix. -/
def lastSlashAt (filePath dirPath : Str) : Bool :=
  match strrchr slash filePath with
  | none => false
  | some lastSlash => filePath.length - lastSlash.length = dirPath.length

/-- The loop of `ramfs_read_dir` from slot `i` on, `fuel` slots being left; `entries` are in the
array. -/
def readDirLoop (ram : RamFs) (path : Str) (count : Nat) : Nat → Nat → List Dirent → List Dirent
  | 0, _, entries => entries
  | fuel + 1, i, entries =>
    if entries.length < count then
      readDirLoop ram path count fuel (i + 1)
        (if (ram.files i).used ∧ isFileInDir (ram.files i).path path then
          entries ++ [{ inode := i + 2, name := basename (ram.files i).path }] else entries)
    else entries

/-- `ramfs_read_dir`, as it fills the array. -/
def ramfsReadDirArray (ram : RamFs) (path : Str) (count : Nat) : List Dirent :=
  let entries : List Dirent := []
  let entries := if entries.length < count then entries ++ [{ inode := 1, name := str ['.'] }]
    else entries
  let entries := if entries.length < count then entries ++ [{ inode := 1, name := str ['.', '.'] }]
    else entries
  readDirLoop ram path count maxFiles 0 entries

/-! ## Children -/

section Child

variable {d p b : Str}

theorem childName_iff : childName d p = some b ↔ p = d ++ slash :: b ∧ slash ∉ b := by
  have hlen : (d ++ [slash]).length = d.length + 1 := by simp
  unfold childName
  constructor
  · intro h
    split at h
    · next hcond =>
      obtain ⟨rest, rfl⟩ := hcond.1
      rw [← hlen, List.drop_left, Option.some.injEq] at h
      subst h
      have hrest := hcond.2
      rw [← hlen, List.drop_left] at hrest
      exact ⟨by simp, hrest⟩
    · cases h
  · rintro ⟨rfl, hslash⟩
    have hcut : d ++ slash :: b = (d ++ [slash]) ++ b := by simp
    rw [hcut, ← hlen, List.drop_left, if_pos ⟨List.prefix_append _ _, hslash⟩]

/-- The last slash of a path, by its place. -/
theorem strrchr_append (s : Str) (hslash : slash ∉ b) :
    strrchr slash (s ++ slash :: b) = some (slash :: b) := by
  induction s with
  | nil => rw [List.nil_append, strrchr, strrchr_eq_none_iff.2 hslash, if_pos rfl]
  | cons c cs ih => rw [List.cons_append, strrchr, ih]

/-- **The general branch**: behind the prefix `d` the last slash stands first. -/
theorem lastSlashAt_iff (hstart : d <+: p) :
    lastSlashAt p d = true ↔ ∃ b, p = d ++ slash :: b ∧ slash ∉ b := by
  unfold lastSlashAt
  constructor
  · intro h
    cases hlast : strrchr slash p with
    | none =>
      rw [hlast] at h
      cases h
    | some t =>
      rw [hlast, decide_eq_true_eq] at h
      obtain ⟨pre, rest, rfl, rfl, hrest⟩ := strrchr_eq_some hlast
      rw [List.length_append, Nat.add_sub_cancel] at h
      have hpre : d = pre := by
        obtain ⟨u, hu⟩ := hstart
        exact List.append_inj_left hu h.symm
      exact ⟨rest, by rw [hpre], hrest⟩
  · rintro ⟨b, rfl, hslash⟩
    rw [strrchr_append d hslash]
    simp

/-- **`is_file_in_dir`** decides whether the path is one name below the directory. -/
theorem isFileInDir_iff (hd : NulFree d) :
    isFileInDir p d = true ↔ ∃ b, p = d ++ slash :: b ∧ slash ∉ b := by
  unfold isFileInDir
  by_cases hstart : d <+: p
  · rw [if_pos ((strncmp_eq_zero_iff hd).2 hstart)]
    by_cases htmp : d = tmpDir
    · rw [if_pos htmp]
      obtain ⟨rest, rfl⟩ := hstart
      rw [List.getElem?_append_right (Nat.le_refl _), Nat.sub_self]
      cases rest with
      | nil => simp
      | cons c cs =>
        by_cases hc : c = slash
        · subst hc
          have hdrop : (d ++ slash :: cs).drop (d.length + 1) = cs := by
            rw [List.append_cons, show d.length + 1 = (d ++ [slash]).length by simp, List.drop_left]
          rw [hdrop]
          simp [strrchr_eq_none_iff]
        · simp [hc]
    · rw [if_neg htmp]
      exact lastSlashAt_iff hstart
  · rw [if_neg (mt (strncmp_eq_zero_iff hd).1 hstart)]
    refine iff_of_false (by simp) ?_
    rintro ⟨b, rfl, -⟩
    exact hstart (List.prefix_append _ _)

/-- What a listing shows of a path. -/
theorem childName_of_isFileInDir (hd : NulFree d) :
    (if isFileInDir p d = true then some (basename p) else none) = childName d p := by
  by_cases h : isFileInDir p d = true
  · obtain ⟨b, hp, hslash⟩ := (isFileInDir_iff hd).1 h
    rw [if_pos h, hp, basename_append d hslash, childName_iff.2 ⟨rfl, hslash⟩]
  · rw [if_neg h]
    cases hchild : childName d p with
    | none => rfl
    | some b =>
      obtain ⟨hp, hslash⟩ := childName_iff.1 hchild
      exact absurd ((isFileInDir_iff hd).2 ⟨b, hp, hslash⟩) h

end Child

/-! ## Listings -/

section Listing

variable {ram : RamFs} {d : Str}

/-- What a slot adds to the listing of a directory. -/
def slotEntry (ram : RamFs) (d : Str) (i : Nat) : Option Dirent :=
  if (ram.files i).used ∧ isFileInDir (ram.files i).path d then
    some { inode := i + 2, name := basename (ram.files i).path }
  else none

/-- The loop stops where there is no room left. -/
theorem readDirLoop_eq (count fuel i : Nat) (entries : List Dirent) (hle : entries.length ≤ count) :
    readDirLoop ram d count fuel i entries =
      (entries ++ (List.range' i fuel).filterMap (slotEntry ram d)).take count := by
  induction fuel generalizing i entries with
  | zero => simp [readDirLoop, List.take_of_length_le hle]
  | succ fuel ih =>
    rw [readDirLoop]
    by_cases hroom : entries.length < count
    · have hstep : (List.range' i (fuel + 1)).filterMap (slotEntry ram d) =
          (slotEntry ram d i).toList ++ (List.range' (i + 1) fuel).filterMap (slotEntry ram d) := by
        rw [List.range'_succ, List.filterMap_cons]
        cases slotEntry ram d i <;> rfl
      rw [if_pos hroom, hstep, ← List.append_assoc]
      by_cases hin : (ram.files i).used ∧ isFileInDir (ram.files i).path d
      · rw [if_pos hin, ih _ _ (by simp; omega), slotEntry, if_pos hin]
        rfl
      · rw [if_neg hin, ih _ _ hle, slotEntry, if_neg hin, Option.toList_none, List.append_nil]
    · have hfull : entries.length = count := by omega
      rw [if_neg hroom, ← hfull, List.take_left]

/-- **`ramfs_read_dir`** is the list of all entries, cut where the room ends. -/
theorem ramfsReadDirArray_eq (count : Nat) :
    ramfsReadDirArray ram d count = ramfsReadDir ram d count := by
  have hrange : List.range maxFiles = List.range' 0 maxFiles := List.range_eq_range'
  have hdir : ramfsReadDir ram d count =
      (ramDots ++ (List.range' 0 maxFiles).filterMap (slotEntry ram d)).take count := by
    rw [ramfsReadDir, hrange]
    rfl
  rw [hdir, ramfsReadDirArray]
  match count with
  | 0 => rw [readDirLoop_eq _ _ _ _ (by simp), List.take_zero, List.take_zero]
  | 1 => rw [readDirLoop_eq _ _ _ _ (by simp)]; simp [ramDots]
  | count + 2 => rw [readDirLoop_eq _ _ _ _ (by simp)]; simp [ramDots]

end Listing

/-- **A listing of RAMFS is exact**, whatever the slots hold: the two dots and then, slot by slot,
the names of the paths that are one name below the directory, as many as there is room for.  The
branch for `"/tmp"` decides what the general branch would. -/
theorem ramfs_listing_exact {ram : RamFs} {paths : Nat → Str}
    (hpaths : ∀ i < maxFiles, (ram.files i).used = true → NulFree (paths i) ∧
      (paths i).length < maxPath ∧ (ram.files i).mem.CStringAt 0 (paths i))
    {d : Str} (hd : NulFree d) (count : Nat) :
    ramfsReadDirArray ram d count =
      (ramDots ++ (List.range maxFiles).filterMap fun i =>
          if (ram.files i).used then (childName d (paths i)).map fun base =>
            ({ inode := i + 2, name := base } : Dirent)
          else none).take count ∧
      ∀ p, (strncmp p tmpDir tmpDir.length = 0 ∧ lastSlashAt p tmpDir = true) ↔
        isFileInDir p tmpDir = true := by
  constructor
  · rw [ramfsReadDirArray_eq, ramfsReadDir]
    refine congrArg (fun l => (_ :: _ :: l).take count) (List.filterMap_congr fun i hi => ?_)
    by_cases hused : (ram.files i).used = true
    · obtain ⟨hnul, hlen, hstring⟩ := hpaths i (List.mem_range.1 hi) hused
      have hpath : (ram.files i).path = paths i :=
        hstring.cstring_eq hnul (by simp only [maxPath] at hlen ⊢; omega)
      rw [hpath, if_pos hused, ← childName_of_isFileInDir hd]
      by_cases hin : isFileInDir (paths i) d = true
      · simp [hused, hin]
      · simp [hin]
    · simp [hused]
  · intro p
    have htmp : NulFree tmpDir := by unfold NulFree; decide
    rw [isFileInDir_iff htmp, strncmp_eq_zero_iff htmp]
    constructor
    · rintro ⟨hstart, hlast⟩
      exact (lastSlashAt_iff hstart).1 hlast
    · rintro ⟨b, rfl, hslash⟩
      have hstart : tmpDir <+: tmpDir ++ slash :: b := List.prefix_append _ _
      exact ⟨hstart, (lastSlashAt_iff hstart).2 ⟨b, rfl, hslash⟩⟩

/-- With the file `/tmp/a` and room for three entries, the listing of `/tmp` is the dots and `a`. -/
theorem ramfs_listing_exact_tmpA :
    ramfsReadDirArray (ramfsCreateFile ramfsInit (tmpSlash ++ str ['a']) []).2 tmpDir 3 =
      ramDots ++ [{ inode := 2, name := str ['a'] }] := by
  have hnul : NulFree (tmpSlash ++ str ['a']) := by unfold NulFree; decide
  have hdir : NulFree tmpDir := by unfold NulFree; decide
  have hpaths : ∀ i < maxFiles,
      ((ramfsCreateFile ramfsInit (tmpSlash ++ str ['a']) []).2.files i).used = true →
      NulFree (tmpSlash ++ str ['a']) ∧ (tmpSlash ++ str ['a']).length < maxPath ∧
        ((ramfsCreateFile ramfsInit (tmpSlash ++ str ['a']) []).2.files i).mem.CStringAt 0
          (tmpSlash ++ str ['a']) := by
    intro i _ hused
    by_cases hi : i = 0
    · subst hi
      exact ⟨hnul, by decide, (strcmp_eq_zero_iff hnul).1 (by decide)⟩
    · have hfile : (ramfsCreateFile ramfsInit (tmpSlash ++ str ['a']) []).2.files i =
          ramfsInit.files i := if_neg hi
      rw [hfile] at hused
      cases hused
  have hlisting := (ramfs_listing_exact hpaths hdir 3).1
  rw [hlisting]
  decide

end OsArm
