import OsArm.Ram.Paths

/-!
# The path of a new file in RAMFS

Three functions copy a path into a slot, which has 32 bytes for it: `ramfs_create` with `strcpy`,
by way of a buffer of 32 bytes, `ramfs_mkdir` with `strcpy`, and `ramfs_create_file` with a loop
that stops after 31 bytes.

* `Creator` — the three, with what they do to the table.
* `Stored` — the path is stored as a whole, and found again.
* `StoresOrRefuses` — it is stored, or the call fails and the table is as before.
* `Creator.Fits` — the condition on the path and on the table before the call.
* `storesOrRefuses_iff` — the one holds exactly where the other does; `long_path_truncated` is a
  path of 32 bytes.
-/

namespace OsArm

/-! ## The calls -/

/-- A call that fills a slot. -/
inductive Creator
  | create (path : Str)
  | mkdir (path : Str)
  | createFile (path content : Str)

namespace Creator

/-- The argument `path`. -/
def path : Creator → Str
  | create path | mkdir path | createFile path _ => path

/-- The complete path to be stored. -/
def whole : Creator → Str
  | create path => ramfsFullPath path
  | mkdir path | createFile path _ => path

/-- The number of bytes of `content` that the call stores. -/
def contentBytes : Creator → Nat
  | create _ => 1
  | mkdir _ => 0
  | createFile _ content => min content.length (maxContent - 1) + 1

/-- Whether the call succeeds, and the table after it; `none` where `ramfs_create` stores bytes
behind the end of its buffer `full_path`. -/
def run (heap : Heap) (ram : RamFs) : Creator → Option (Bool × RamFs)
  | create path =>
    if (ramfsFullPath path).length < maxPath then
      let r := ramfsCreate heap ram path
      some (r.1.isSome, r.2.2)
    else none
  | mkdir path =>
    let r := ramfsMkdir ram path
    some (r.1 = 0, r.2)
  | createFile path content =>
    let r := ramfsCreateFile ram path content
    some (r.1 = 0, r.2)

end Creator

/-- **The path is stored as a whole** in slot `i`: in its field, with its terminator, and with
nothing else overwritten but the size, the flag and the first bytes of the content; and
`ramfs_open` finds the slot by the path. -/
structure Stored (a : Creator) (ram ram' : RamFs) (i : Nat) : Prop where
  lt : i < maxFiles
  others : ∀ k, k ≠ i → ram'.files k = ram.files k
  used : (ram'.files i).used = true
  length_lt : a.whole.length < maxPath
  path : (ram'.files i).mem.CStringAt 0 a.whole
  rest : ∀ x, a.whole.length < x → x < contentOff ∨ contentOff + a.contentBytes ≤ x →
    (ram'.files i).mem x = (ram.files i).mem x
  found : ∀ heap, (kalloc heap sizeofVfsFile).isSome →
    (ramfsOpen heap ram' a.whole).1.map VfsFile.privateData = some i

/-- **The path is stored as a whole, or the call fails** and the table is as it was. -/
def StoresOrRefuses (heap : Heap) (ram : RamFs) (a : Creator) : Prop :=
  ∃ ok ram', a.run heap ram = some (ok, ram') ∧
    if ok = true then ∃ i, Stored a ram ram' i else ram' = ram

/-- No slot in front of `i` is used for the path. -/
def FirstFor (ram : RamFs) (i : Nat) (p : Str) : Prop := ∀ k < i, ¬ HoldsPath ram k p

/-- **The condition.**  The path fits its field, and no slot in front of the first free one is used
for it, unless there is no free slot; for `ramfs_create` it has to fit in any case, and where there
is no memory for the handle, the slot has to hold what `ramfs_create` puts there. -/
def Creator.Fits (heap : Heap) (ram : RamFs) : Creator → Prop
  | create path => (ramfsFullPath path).length < maxPath ∧ ∀ i, findFree ram = some i →
      if (kalloc heap sizeofVfsFile).isSome then FirstFor ram i (ramfsFullPath path)
      else HoldsAlready (ram.files i) (ramfsFullPath path)
  | mkdir path | createFile path _ => ∀ i, findFree ram = some i →
      path.length < maxPath ∧ FirstFor ram i path

/-! ## One slot filled -/

section Filled

variable {heap : Heap} {ram : RamFs} {a : Creator} {i : Nat} {f : RamfsFile}

/-- A path that is short enough leaves the content to the content. -/
theorem cstringAt_path {m m' : ByteMem} {p : Str} (hlen : p.length < maxPath)
    (h : ∀ x < contentOff, m' x = strcpy m 0 p x) : m'.CStringAt 0 p :=
  cstringAt_of_prefix (cstringAt_strcpy m 0 p) hlen h

theorem strcpy_rest {m : ByteMem} {p : Str} {x : Nat} (hx : p.length < x) :
    strcpy m 0 p x = m x := by
  rw [strcpy_eq, ByteMem.blit_outside (by omega)]

/-- **Filling the first free slot** stores the path as a whole if and only if it fits and no slot
in front has it. -/
theorem exists_stored_iff (hp : NulFree a.whole) (hfree : findFree ram = some i)
    (hused : f.used = true) (hpath : a.whole.length < maxPath → f.mem.CStringAt 0 a.whole)
    (hrest : a.whole.length < maxPath → ∀ x, a.whole.length < x →
      x < contentOff ∨ contentOff + a.contentBytes ≤ x → f.mem x = (ram.files i).mem x) :
    (∃ k, Stored a ram (ram.setFile i f) k) ↔
      a.whole.length < maxPath ∧ FirstFor ram i a.whole := by
  obtain ⟨hi, hunused⟩ := findFree_eq_some hfree
  have hholds : ∀ k < i, HoldsPath (ram.setFile i f) k a.whole ↔ HoldsPath ram k a.whole := by
    intro k hk
    exact holdsPath_congr (Or.inl (setFile_of_ne (by omega)))
  constructor
  · rintro ⟨k, hk⟩
    have hki : k = i := by
      by_contra hne
      have hsame := hk.others i (Ne.symm hne)
      rw [setFile_self] at hsame
      rw [hsame, hunused] at hused
      cases hused
    subst hki
    refine ⟨hk.length_lt, ?_⟩
    intro n hn hno
    have hfound := hk.found (Heap.mk 0) (by decide)
    obtain ⟨file, hopen, hdata⟩ := Option.map_eq_some_iff.1 hfound
    have hslot : findUsed (ram.setFile k f) a.whole = some k := by
      unfold ramfsOpen at hopen
      split at hopen
      · cases hopen
      · next j hj =>
        split at hopen
        · cases hopen
        · cases hopen
          rw [hj]
          exact congrArg some hdata
    exact ((findUsed_eq_some_iff hp).1 hslot).2.2 n hn ((hholds n hn).2 hno)
  · rintro ⟨hlen, hfirst⟩
    have hslot : HoldsPath (ram.setFile i f) i a.whole := by
      unfold HoldsPath
      rw [setFile_self]
      exact ⟨hused, hpath hlen⟩
    have hfound : findUsed (ram.setFile i f) a.whole = some i :=
      (findUsed_eq_some_iff hp).2 ⟨hi, hslot, fun n hn hno => hfirst n hn ((hholds n hn).1 hno)⟩
    refine ⟨i, hi, fun k hk => setFile_of_ne hk, hslot.1, hlen, hslot.2, ?_, ?_⟩
    · intro x hx hrange
      rw [setFile_self]
      exact hrest hlen x hx hrange
    · intro heap hheap
      obtain ⟨r, hr⟩ := Option.isSome_iff_exists.1 hheap
      simp only [ramfsOpen, hfound, hr, Option.map_some]

end Filled

/-! ## The three calls -/

section Calls

variable {heap : Heap} {ram : RamFs} {i : Nat}

/-- An answer decides what is asked of the table. -/
theorem storesOrRefuses_of_run {a : Creator} {ok : Bool} {ram' : RamFs}
    (h : a.run heap ram = some (ok, ram')) :
    StoresOrRefuses heap ram a ↔ if ok = true then ∃ i, Stored a ram ram' i else ram' = ram := by
  unfold StoresOrRefuses
  rw [h]
  constructor
  · rintro ⟨ok', ram'', heq, hkeeps⟩
    cases heq
    exact hkeeps
  · intro hkeeps
    exact ⟨ok, ram', rfl, hkeeps⟩

/-- What `ramfs_create` puts into the slot. -/
theorem createdMem_spec {m : ByteMem} {p : Str} (hlen : p.length < maxPath) :
    ((strcpy m 0 p).set contentOff 0).CStringAt 0 p ∧
      ∀ x, p.length < x → x < contentOff ∨ contentOff + 1 ≤ x →
        (strcpy m 0 p).set contentOff 0 x = m x := by
  constructor
  · exact cstringAt_path hlen fun x hx => ByteMem.set_of_ne (by omega)
  · intro x hx hrange
    rw [ByteMem.set_of_ne (by omega), strcpy_rest hx]

/-- What `ramfs_create_file` puts into the slot. -/
theorem createdFileMem_spec {m : ByteMem} {p : Str} (content : Str) (hlen : p.length < maxPath) :
    (copyBounded (copyBounded m 0 (maxPath - 1) p) contentOff (maxContent - 1) content).CStringAt
        0 p ∧
      ∀ x, p.length < x →
        x < contentOff ∨ contentOff + (min content.length (maxContent - 1) + 1) ≤ x →
        copyBounded (copyBounded m 0 (maxPath - 1) p) contentOff (maxContent - 1) content x =
          m x := by
  have htake : p.take (maxPath - 1) = p := List.take_of_length_le (by omega)
  have hcut : (content.take (maxContent - 1)).length = min content.length (maxContent - 1) := by
    rw [List.length_take, Nat.min_comm]
  rw [copyBounded_eq, copyBounded_eq, htake, strcpy_eq _ contentOff, hcut]
  constructor
  · exact cstringAt_path hlen fun x hx => ByteMem.blit_outside (by omega)
  · intro x hx hrange
    rw [ByteMem.blit_outside (by omega), strcpy_rest hx]

theorem create_stores_iff {path : Str} (hp : NulFree path) :
    StoresOrRefuses heap ram (.create path) ↔ (Creator.create path).Fits heap ram := by
  have hfull : NulFree (ramfsFullPath path) := nulFree_fullPath hp
  by_cases hlen : (ramfsFullPath path).length < maxPath
  · have hrun : (Creator.create path).run heap ram =
        some ((ramfsCreate heap ram path).1.isSome, (ramfsCreate heap ram path).2.2) := if_pos hlen
    rw [storesOrRefuses_of_run hrun, Creator.Fits, and_iff_right hlen]
    unfold ramfsCreate
    cases hfree : findFree ram with
    | none => exact iff_of_true rfl fun i hi => by cases hi
    | some i =>
      have hunused := (findFree_eq_some hfree).2
      simp only [Option.some.injEq, forall_eq']
      cases hk : kalloc heap sizeofVfsFile with
      | none =>
        -- the slot is free again, but its bytes are those of the new file
        simp only [Option.isSome_none, Bool.false_eq_true, if_false]
        rw [setFile_eq_self_iff, HoldsAlready, ← hunused]
        constructor
        · intro h
          exact ⟨congrArg RamfsFile.mem h, (congrArg RamfsFile.size h).symm⟩
        · rintro ⟨hmem, hsize⟩
          rw [hmem, ← hsize]
      | some x =>
        have hspec := createdMem_spec (m := (ram.files i).mem) hlen
        have hfilled := exists_stored_iff (a := .create path)
          (f := ⟨(strcpy (ram.files i).mem 0 (ramfsFullPath path)).set contentOff 0, 0, true⟩)
          hfull hfree rfl (fun _ => hspec.1) fun _ => hspec.2
        simp only [Option.isSome_some, if_true]
        rw [hfilled]
        exact and_iff_right hlen
  · refine iff_of_false ?_ fun h => hlen h.1
    rintro ⟨ok, ram', hrun, -⟩
    rw [Creator.run, if_neg hlen] at hrun
    cases hrun

theorem mkdir_stores_iff {path : Str} (hp : NulFree path) :
    StoresOrRefuses heap ram (.mkdir path) ↔ (Creator.mkdir path).Fits heap ram := by
  rw [storesOrRefuses_of_run rfl, Creator.Fits]
  unfold ramfsMkdir
  cases hfree : findFree ram with
  | none => exact iff_of_true rfl fun i hi => by cases hi
  | some i =>
    have hfilled := exists_stored_iff (a := .mkdir path)
      (f := ⟨strcpy (ram.files i).mem 0 path, 0, true⟩) hp hfree rfl
      (fun hlen => cstringAt_path hlen fun _ _ => rfl) fun _ x hx _ => strcpy_rest hx
    simp only [Option.some.injEq, forall_eq', decide_true, if_true]
    exact hfilled

theorem createFile_stores_iff {path content : Str} (hp : NulFree path) :
    StoresOrRefuses heap ram (.createFile path content) ↔
      (Creator.createFile path content).Fits heap ram := by
  rw [storesOrRefuses_of_run rfl, Creator.Fits]
  unfold ramfsCreateFile
  cases hfree : findFree ram with
  | none => exact iff_of_true rfl fun i hi => by cases hi
  | some i =>
    have hspec : path.length < maxPath → _ := createdFileMem_spec (m := (ram.files i).mem) content
    have hfilled := exists_stored_iff (a := .createFile path content)
      (f := ⟨copyBounded (copyBounded (ram.files i).mem 0 (maxPath - 1) path) contentOff
        (maxContent - 1) content, min content.length (maxContent - 1), true⟩) hp hfree rfl
      (fun hlen => (hspec hlen).1) fun hlen => (hspec hlen).2
    simp only [Option.some.injEq, forall_eq', decide_true, if_true]
    exact hfilled

end Calls

/-- **A path is stored as a whole or refused** exactly where `Fits` holds. -/
theorem storesOrRefuses_iff (heap : Heap) (ram : RamFs) {a : Creator} (hp : NulFree a.path) :
    StoresOrRefuses heap ram a ↔ a.Fits heap ram := by
  cases a with
  | create path => exact create_stores_iff hp
  | mkdir path => exact mkdir_stores_iff hp
  | createFile path content => exact createFile_stores_iff hp

/-- The path `/tmp/a` is stored as a whole in the first slot. -/
theorem storesOrRefuses_iff_tmpA :
    StoresOrRefuses (Heap.mk 0) ramfsInit (.create (tmpSlash ++ str ['a'])) := by
  have hp : NulFree (tmpSlash ++ str ['a']) := by unfold NulFree; decide
  refine (storesOrRefuses_iff (Heap.mk 0) ramfsInit (a := .create (tmpSlash ++ str ['a'])) hp).2 ?_
  refine ⟨by decide, ?_⟩
  intro i _
  rw [if_pos (by decide)]
  intro k _ hholds
  cases hholds.1

/-- `"/tmp/"` and 27 letters. -/
def longPath : Str := tmpSlash ++ List.replicate 27 120

/-- **A path of 32 bytes is not stored as a whole**: `ramfs_create_file` answers 0 for it, and then
`ramfs_open` does not find it; `ramfs_mkdir` puts its terminator into the content, and
`ramfs_create` behind the end of `full_path`. -/
theorem long_path_truncated :
    NulFree longPath ∧ longPath.length = 32 ∧ (ramfsCreateFile ramfsInit longPath []).1 = 0 ∧
      findUsed (ramfsCreateFile ramfsInit longPath []).2 longPath = none ∧
      ∀ heap, ¬ StoresOrRefuses heap ramfsInit (.createFile longPath []) ∧
        ¬ StoresOrRefuses heap ramfsInit (.mkdir longPath) ∧
        ¬ StoresOrRefuses heap ramfsInit (.create longPath) := by
  have hp : NulFree longPath := by unfold NulFree; decide
  have hlen : ¬ longPath.length < maxPath := by decide
  have hfree : findFree ramfsInit = some 0 := by decide
  refine ⟨hp, by decide, by decide, by decide +kernel, fun heap => ⟨?_, ?_, ?_⟩⟩
  · rw [createFile_stores_iff hp]
    exact fun h => hlen (h 0 hfree).1
  · rw [mkdir_stores_iff hp]
    exact fun h => hlen (h 0 hfree).1
  · rw [create_stores_iff hp]
    exact fun h => hlen h.1

end OsArm
