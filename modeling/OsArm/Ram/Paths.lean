import OsArm.Lib.Transition
import OsArm.Ram.Streams

/-!
# RAMFS as a map from paths to slots

No creator of `ramfs.c` looks whether its path is taken
(`ramfs_duplicate_paths`).  As long as its callers do, the table is a map:

* `findUsed_eq_some`, `findFree_eq_some` — the two scans.
* `PathMap` — used slots and paths correspond; `PathMap.create`,
  `PathMap.release` are the two updates.
* `ramfs_map_by_path` — in every reachable state no two used slots have one
  path, and `ramfs_open` finds the slot the path was created in last, if it was
  not unlinked since.
-/

namespace OsArm

/-! ## Scans -/

theorem findFree_eq_some {ram : RamFs} {i : Nat} (h : findFree ram = some i) :
    i < maxFiles ∧ (ram.files i).used = false := by
  have hp := List.find?_some h
  have hmem := List.mem_range.1 (List.mem_of_find?_eq_some h)
  exact ⟨hmem, by simpa using hp⟩

theorem findUsed_eq_some {ram : RamFs} {p : Str} {i : Nat} (hp : NulFree p)
    (h : findUsed ram p = some i) :
    i < maxFiles ∧ (ram.files i).used = true ∧ (ram.files i).mem.CStringAt 0 p := by
  have hfound := List.find?_some h
  have hmem := List.mem_range.1 (List.mem_of_find?_eq_some h)
  rw [decide_eq_true_eq] at hfound
  exact ⟨hmem, hfound.1, (strcmp_eq_zero_iff hp).1 hfound.2⟩

theorem findUsed_eq_none {ram : RamFs} {p : Str} (hp : NulFree p) :
    findUsed ram p = none ↔ ∀ i < maxFiles, (ram.files i).used = true →
      ¬ (ram.files i).mem.CStringAt 0 p := by
  unfold findUsed
  rw [List.find?_eq_none]
  constructor
  · intro h i hi hused hs
    have hno := h i (List.mem_range.2 hi)
    rw [decide_eq_true_eq] at hno
    exact hno ⟨hused, (strcmp_eq_zero_iff hp).2 hs⟩
  · intro h i hi hyes
    rw [decide_eq_true_eq] at hyes
    exact h i (List.mem_range.1 hi) hyes.1 ((strcmp_eq_zero_iff hp).1 hyes.2)

/-! ## The slots of a path -/

/-- The slot is used for the path. -/
def HoldsPath (ram : RamFs) (k : Nat) (path : Str) : Prop :=
  (ram.files k).used = true ∧ (ram.files k).mem.CStringAt 0 path

section Holds

variable {ram ram' : RamFs} {k : Nat} {p q : Str}

theorem HoldsPath.unique (h : HoldsPath ram k p) (h' : HoldsPath ram k q) (hp : NulFree p)
    (hq : NulFree q) : p = q := h.2.unique h'.2 hp hq

/-- Changes of slots that are not in use do not count. -/
theorem holdsPath_congr (h : ram'.files k = ram.files k ∨
    (ram.files k).used = false ∧ (ram'.files k).used = false) :
    HoldsPath ram' k p ↔ HoldsPath ram k p := by
  unfold HoldsPath
  rcases h with heq | ⟨hno, hno'⟩
  · rw [heq]
  · rw [hno, hno']
    simp

/-- The first slot that is used for the path. -/
theorem findUsed_eq_some_iff (hp : NulFree p) :
    findUsed ram p = some k ↔ k < maxFiles ∧ HoldsPath ram k p ∧ ∀ n < k, ¬ HoldsPath ram n p := by
  unfold findUsed HoldsPath
  rw [List.find?_range_eq_some]
  simp only [decide_eq_true_eq, List.mem_range, strcmp_eq_zero_iff hp, Bool.not_eq_true',
    decide_eq_false_iff_not]
  exact ⟨fun h => ⟨h.2.1, h.1, h.2.2⟩, fun h => ⟨h.2.1, h.1, h.2.2⟩⟩

theorem findUsed_congr (hp : NulFree p) (h : ∀ k, HoldsPath ram k p ↔ HoldsPath ram' k p) :
    findUsed ram p = findUsed ram' p := by
  refine Option.ext ?_
  intro k
  simp only [findUsed_eq_some_iff hp, h]

/-- The bytes of the slot are already those that `ramfs_create` puts there. -/
def HoldsAlready (f : RamfsFile) (path : Str) : Prop :=
  (strcpy f.mem 0 path).set contentOff 0 = f.mem ∧ f.size = 0

end Holds

/-! ## The correspondence -/

/-- **Used slots and paths correspond**: `slot` says where a path is. -/
structure PathMap (ram : RamFs) (slot : Str → Option Nat) : Prop where
  /-- Every used slot holds a path, and is the slot of that path. -/
  path : ∀ i < maxFiles, (ram.files i).used = true → ∃ p, NulFree p ∧ p.length < maxPath ∧
    (ram.files i).mem.CStringAt 0 p ∧ slot p = some i
  /-- Every slot that a path has is used for it. -/
  used : ∀ p i, slot p = some i → NulFree p ∧ i < maxFiles ∧ (ram.files i).used = true ∧
    (ram.files i).mem.CStringAt 0 p

namespace PathMap

variable {ram : RamFs} {slot : Str → Option Nat} {i : Nat} {f : RamfsFile} {p : Str}

theorem init : PathMap ramfsInit fun _ => none where
  path i _ hused := by cases hused
  used p i h := by cases h

/-- The slot of a path is the used slot that holds it. -/
theorem slot_eq (h : PathMap ram slot) (hp : NulFree p) (hi : i < maxFiles)
    (hused : (ram.files i).used = true) (hs : (ram.files i).mem.CStringAt 0 p) :
    slot p = some i := by
  obtain ⟨q, hq, -, hs', hslot⟩ := h.path i hi hused
  rwa [hs.unique hs' hp hq]

/-- `findUsed` computes the map. -/
theorem findUsed_eq (h : PathMap ram slot) (hp : NulFree p) : findUsed ram p = slot p := by
  cases hfind : findUsed ram p with
  | some i =>
    obtain ⟨hi, hused, hs⟩ := findUsed_eq_some hp hfind
    exact (h.slot_eq hp hi hused hs).symm
  | none =>
    cases hslot : slot p with
    | none => rfl
    | some i =>
      obtain ⟨-, hi, hused, hs⟩ := h.used p i hslot
      exact absurd hs ((findUsed_eq_none hp).1 hfind i hi hused)

/-- Rewriting a slot that stays unused. -/
theorem setUnused (h : PathMap ram slot) (hfree : (ram.files i).used = false)
    (hf : f.used = false) : PathMap (ram.setFile i f) slot where
  path j hj hused := by
    have hji : j ≠ i := by
      rintro rfl
      rw [setFile_self, hf] at hused
      cases hused
    rw [setFile_of_ne hji] at hused ⊢
    exact h.path j hj hused
  used q j hslot := by
    obtain ⟨hq, hj, hused, hs⟩ := h.used q j hslot
    have hji : j ≠ i := by
      rintro rfl
      rw [hfree] at hused
      cases hused
    rw [setFile_of_ne hji]
    exact ⟨hq, hj, hused, hs⟩

/-- Filling a free slot with a path that no slot has. -/
theorem create (h : PathMap ram slot) (hi : i < maxFiles) (hfree : (ram.files i).used = false)
    (hp : NulFree p) (hlen : p.length < maxPath) (hnone : slot p = none) (hf : f.used = true)
    (hs : f.mem.CStringAt 0 p) : PathMap (ram.setFile i f) (Function.update slot p (some i)) where
  path j hj hused := by
    by_cases hji : j = i
    · subst hji
      rw [setFile_self]
      exact ⟨p, hp, hlen, hs, Function.update_self p _ slot⟩
    · rw [setFile_of_ne hji] at hused ⊢
      obtain ⟨q, hq, hqlen, hqs, hslot⟩ := h.path j hj hused
      have hqp : q ≠ p := by
        rintro rfl
        rw [hnone] at hslot
        cases hslot
      exact ⟨q, hq, hqlen, hqs, by rw [Function.update_of_ne hqp, hslot]⟩
  used q j hslot := by
    by_cases hqp : q = p
    · subst hqp
      rw [Function.update_self, Option.some_inj] at hslot
      subst hslot
      rw [setFile_self]
      exact ⟨hp, hi, hf, hs⟩
    · rw [Function.update_of_ne hqp] at hslot
      obtain ⟨hq, hj, hused, hqs⟩ := h.used q j hslot
      have hji : j ≠ i := by
        rintro rfl
        rw [hfree] at hused
        cases hused
      rw [setFile_of_ne hji]
      exact ⟨hq, hj, hused, hqs⟩

/-- Giving up the slot of a path. -/
theorem release (h : PathMap ram slot) (hslot : slot p = some i) (hf : f.used = false) :
    PathMap (ram.setFile i f) (Function.update slot p none) where
  path j hj hused := by
    have hji : j ≠ i := by
      rintro rfl
      rw [setFile_self, hf] at hused
      cases hused
    rw [setFile_of_ne hji] at hused ⊢
    obtain ⟨q, hq, hqlen, hqs, hqslot⟩ := h.path j hj hused
    have hqp : q ≠ p := by
      rintro rfl
      rw [hslot, Option.some_inj] at hqslot
      exact hji hqslot.symm
    exact ⟨q, hq, hqlen, hqs, by rw [Function.update_of_ne hqp, hqslot]⟩
  used q j hqslot := by
    have hqp : q ≠ p := by
      rintro rfl
      rw [Function.update_self] at hqslot
      cases hqslot
    rw [Function.update_of_ne hqp] at hqslot
    obtain ⟨hq, hj, hused, hqs⟩ := h.used q j hqslot
    have hji : j ≠ i := by
      rintro rfl
      obtain ⟨hp, -, -, hs⟩ := h.used p j hslot
      have hpq := hqs.unique hs hq hp
      exact hqp hpq
    rw [setFile_of_ne hji]
    exact ⟨hq, hj, hused, hqs⟩

end PathMap

/-! ## The transition system -/

/-- A call that changes which paths there are. -/
inductive RamCall
  | create (path : Str)
  | createFile (path content : Str)
  | mkdir (path : Str)
  | unlink (path : Str)

/-- The heap, the files, and where each path was created last and not unlinked since. -/
structure PathState where
  heap : Heap
  ram : RamFs
  latest : Str → Option Nat

namespace RamCall

/-- The path a creator stores in the slot. -/
def stored : RamCall → Option Str
  | create path => some (ramfsFullPath path)
  | createFile path _ => some (path.take (maxPath - 1))
  | mkdir path => some path
  | unlink _ => none

/-- The argument `path`. -/
def path : RamCall → Str
  | create path | createFile path _ | mkdir path | unlink path => path

/-- What is asked of the callers: C strings of less than 32 bytes, also with the
prefix `ramfs_create` adds, and, while there is a free slot, no creating of what exists. -/
def Allowed (ram : RamFs) (a : RamCall) : Prop :=
  NulFree a.path ∧ a.path.length < maxPath ∧ ∀ p ∈ a.stored, p.length < maxPath ∧
    (findFree ram ≠ none → ∀ i < maxFiles, (ram.files i).used = true →
      ¬ (ram.files i).mem.CStringAt 0 p)

/-- The state after a call, by the call's answer. -/
def apply (s : PathState) : RamCall → PathState
  | create path =>
    let r := ramfsCreate s.heap s.ram path
    match r.1 with
    | none => { s with heap := r.2.1, ram := r.2.2 }
    | some file =>
      { heap := r.2.1
        ram := r.2.2
        latest := Function.update s.latest (ramfsFullPath path) (some file.privateData) }
  | createFile path content =>
    let r := ramfsCreateFile s.ram path content
    if r.1 = 0 then { s with ram := r.2, latest := Function.update s.latest path (findFree s.ram) }
    else { s with ram := r.2 }
  | mkdir path =>
    let r := ramfsMkdir s.ram path
    if r.1 = 0 then { s with ram := r.2, latest := Function.update s.latest path (findFree s.ram) }
    else { s with ram := r.2 }
  | unlink path =>
    let r := ramfsUnlink s.ram path
    if r.1 = 0 then { s with ram := r.2, latest := Function.update s.latest path none }
    else { s with ram := r.2 }

end RamCall

/-- Any order of allowed calls. -/
def pathLts : Lts PathState RamCall where
  step s a t := a.Allowed s.ram ∧ t = a.apply s

/-! ## One call -/

/-- A path that is short enough stays in its field. -/
theorem cstringAt_of_prefix {m m' : ByteMem} {p : Str} (hs : m.CStringAt 0 p)
    (hlen : p.length < maxPath) (h : ∀ x < maxPath, m' x = m x) : m'.CStringAt 0 p :=
  hs.move fun i hi => h _ (by omega)

theorem nulFree_fullPath {p : Str} (hp : NulFree p) : NulFree (ramfsFullPath p) := by
  have htmp : NulFree tmpSlash := by unfold NulFree; decide
  unfold ramfsFullPath
  split
  · intro h
    rcases List.mem_append.1 h with h | h
    · exact htmp h
    · exact hp h
  · exact hp

/-- A path that no used slot holds is not one of the map. -/
theorem PathMap.latest_eq_none {ram : RamFs} {latest : Str → Option Nat}
    (h : PathMap ram latest) {p : Str} (hp : NulFree p)
    (hnew : ∀ i < maxFiles, (ram.files i).used = true →
      ¬ (ram.files i).mem.CStringAt 0 p) : latest p = none := by
  rw [← h.findUsed_eq hp, findUsed_eq_none hp]
  exact hnew

theorem PathMap.call {s : PathState} (h : PathMap s.ram s.latest) {a : RamCall}
    (ha : a.Allowed s.ram) : PathMap (a.apply s).ram (a.apply s).latest := by
  obtain ⟨hp, hlen, hstored⟩ := ha
  have hneg : (-1 : Int) ≠ 0 := by decide
  cases a with
  | create path =>
    obtain ⟨hfull, hnew⟩ := hstored (ramfsFullPath path) rfl
    have hnul : NulFree (ramfsFullPath path) := nulFree_fullPath hp
    simp only [RamCall.apply, ramfsCreate]
    cases hfree : findFree s.ram with
    | none => exact h
    | some i =>
      have hnone := h.latest_eq_none hnul (hnew (by rw [hfree]; simp))
      obtain ⟨hi, hunused⟩ := findFree_eq_some hfree
      cases hheap : kalloc s.heap sizeofVfsFile with
      | none => exact h.setUnused hunused rfl
      | some r =>
        refine h.create hi hunused hnul hfull hnone (by rfl) ?_
        refine cstringAt_of_prefix (cstringAt_strcpy (s.ram.files i).mem 0 _) hfull ?_
        intro x hx
        exact ByteMem.set_of_ne (by rw [contentOff]; omega)
  | createFile path content =>
    have hp : NulFree path := hp
    have hlen : path.length < maxPath := hlen
    have htake : path.take (maxPath - 1) = path := List.take_of_length_le (by omega)
    obtain ⟨-, hnew⟩ := hstored (path.take (maxPath - 1)) rfl
    rw [htake] at hnew
    cases hfree : findFree s.ram with
    | none =>
      simp only [RamCall.apply, ramfsCreateFile, hfree, if_neg hneg]
      exact h
    | some i =>
      have hnone := h.latest_eq_none hp (hnew (by rw [hfree]; simp))
      simp only [RamCall.apply, ramfsCreateFile, hfree, if_true]
      obtain ⟨hi, hunused⟩ := findFree_eq_some hfree
      refine h.create hi hunused hp hlen hnone (by rfl) ?_
      dsimp only
      rw [copyBounded_eq, copyBounded_eq, htake]
      refine cstringAt_of_prefix (cstringAt_strcpy (s.ram.files i).mem 0 _) hlen ?_
      intro x hx
      rw [strcpy_eq, ByteMem.blit_outside (by rw [contentOff]; omega)]
  | mkdir path =>
    have hp : NulFree path := hp
    obtain ⟨-, hnew⟩ := hstored path rfl
    cases hfree : findFree s.ram with
    | none =>
      simp only [RamCall.apply, ramfsMkdir, hfree, if_neg hneg]
      exact h
    | some i =>
      have hnone := h.latest_eq_none hp (hnew (by rw [hfree]; simp))
      simp only [RamCall.apply, ramfsMkdir, hfree, if_true]
      obtain ⟨hi, hunused⟩ := findFree_eq_some hfree
      exact h.create hi hunused hp hlen hnone (by rfl) (cstringAt_strcpy _ _ _)
  | unlink path =>
    have hp : NulFree path := hp
    have hfind := h.findUsed_eq hp
    cases hslot : s.latest path with
    | none =>
      rw [hslot] at hfind
      simp only [RamCall.apply, ramfsUnlink, hfind, if_neg hneg]
      exact h
    | some i =>
      rw [hslot] at hfind
      simp only [RamCall.apply, ramfsUnlink, hfind, if_true]
      exact h.release hslot rfl

/-! ## Whole runs -/

/-- **RAMFS is a map keyed by path**, for callers that do not create a path twice:
in every reachable state different used slots have different paths, and
`ramfs_open` finds the slot where the path was created last, or nothing if it
was not created or was unlinked since. -/
theorem ramfs_map_by_path (heap : Heap) {t : PathState}
    (h : pathLts.Reachable { heap := heap, ram := ramfsInit, latest := fun _ => none } t) :
    (∀ i j, i < maxFiles → j < maxFiles → (t.ram.files i).used = true →
      (t.ram.files j).used = true → (t.ram.files i).path = (t.ram.files j).path → i = j) ∧
    ∀ heap' p, NulFree p → kalloc heap' sizeofVfsFile ≠ none →
      (ramfsOpen heap' t.ram p).1.map VfsFile.privateData = t.latest p := by
  have hmap : PathMap t.ram t.latest :=
    h.invariant (P := fun t => PathMap t.ram t.latest)
      (fun s a u hs hstep => by rw [hstep.2]; exact hs.call hstep.1) PathMap.init
  refine ⟨?_, ?_⟩
  · intro i j hi hj hui huj hij
    obtain ⟨p, hp, hplen, hps, hpslot⟩ := hmap.path i hi hui
    obtain ⟨q, hq, hqlen, hqs, hqslot⟩ := hmap.path j hj huj
    rw [maxPath] at hplen hqlen
    have hip : (t.ram.files i).path = p :=
      hps.cstring_eq hp (by rw [maxPath, maxContent]; omega)
    have hjq : (t.ram.files j).path = q :=
      hqs.cstring_eq hq (by rw [maxPath, maxContent]; omega)
    rw [← hip, hij, hjq, hqslot, Option.some_inj] at hpslot
    exact hpslot.symm
  · intro heap' p hp hheap
    obtain ⟨r, hr⟩ := Option.ne_none_iff_exists'.1 hheap
    unfold ramfsOpen
    rw [hmap.findUsed_eq hp, hr]
    cases t.latest p <;> rfl

/-- Creating one path twice fills two slots with it, and after an `unlink` the
path can still be opened. -/
theorem ramfs_duplicate_paths :
    let path := tmpSlash ++ str ['a']
    let r := ramfsCreate (Heap.mk 0) ramfsInit path
    let s := ramfsCreate r.2.1 r.2.2 path
    (s.2.2.files 0).used = true ∧ (s.2.2.files 1).used = true ∧
      (s.2.2.files 0).path = (s.2.2.files 1).path ∧ (ramfsUnlink s.2.2 path).1 = 0 ∧
      (ramfsOpen s.2.1 (ramfsUnlink s.2.2 path).2 path).1 ≠ none := by
  decide +kernel

/-- `/tmp/a` is unlinked, and its slot given to `/tmp/c`. -/
theorem ramfs_map_by_path_create :
    let a := tmpSlash ++ str ['a']
    let b := tmpSlash ++ str ['b']
    let c := tmpSlash ++ str ['c']
    let t := [RamCall.create a, .create b, .unlink a, .create c].foldl RamCall.apply
      { heap := Heap.mk 0, ram := ramfsInit, latest := fun _ => none }
    [a, b, c].map (fun p => (ramfsOpen (Heap.mk 0) t.ram p).1.map VfsFile.privateData) =
      [none, some 1, some 0] := by
  intro a b c t
  have hnul : NulFree a ∧ NulFree b ∧ NulFree c := by unfold NulFree; decide
  have hcreate : ∀ (s : PathState) p, NulFree p → ramfsFullPath p = p → p.length < maxPath →
      findUsed s.ram p = none → pathLts.step s (.create p) ((RamCall.create p).apply s) := by
    intro s p hp hfull hlen hnone
    refine ⟨⟨hp, hlen, fun q hq => ?_⟩, rfl⟩
    obtain rfl : p = q := hfull.symm.trans (Option.some.inj hq)
    exact ⟨hlen, fun _ => (findUsed_eq_none hp).1 hnone⟩
  obtain ⟨s₁, hs₁⟩ : ∃ s₁, s₁ = (RamCall.create a).apply
    { heap := Heap.mk 0, ram := ramfsInit, latest := fun _ => none } := ⟨_, rfl⟩
  obtain ⟨s₂, hs₂⟩ : ∃ s₂, s₂ = (RamCall.create b).apply s₁ := ⟨_, rfl⟩
  obtain ⟨s₃, hs₃⟩ : ∃ s₃, s₃ = (RamCall.unlink a).apply s₂ := ⟨_, rfl⟩
  have ht : t = (RamCall.create c).apply s₃ := by
    simp only [t, List.foldl_cons, List.foldl_nil, hs₃, hs₂, hs₁]
  have hunlink : pathLts.step s₂ (.unlink a) s₃ :=
    ⟨⟨hnul.1, by decide, fun _ hq => absurd hq (by simp [RamCall.stored])⟩, hs₃⟩
  have hreach : pathLts.Reachable
      { heap := Heap.mk 0, ram := ramfsInit, latest := fun _ => none } t := by
    rw [ht]
    refine Lts.Reachable.tail ?_ (hcreate s₃ c hnul.2.2 (by decide) (by decide) ?_)
    · refine Lts.Reachable.tail ?_ hunlink
      rw [hs₂]
      refine Lts.Reachable.tail ?_ (hcreate s₁ b hnul.2.1 (by decide) (by decide) ?_)
      · rw [hs₁]
        exact (Lts.Reachable.refl _).tail
          (hcreate _ a hnul.1 (by decide) (by decide) (by decide +kernel))
      · rw [hs₁]
        decide +kernel
    · rw [hs₃, hs₂, hs₁]
      decide +kernel
  have hopen := (ramfs_map_by_path (Heap.mk 0) hreach).2 (Heap.mk 0)
  have hheap : kalloc (Heap.mk 0) sizeofVfsFile ≠ none := by decide
  have hlatest : [a, b, c].map t.latest = [none, some 1, some 0] := by decide +kernel
  rw [← hlatest]
  simp only [List.map_cons, List.map_nil, hopen a hnul.1 hheap, hopen b hnul.2.1 hheap,
    hopen c hnul.2.2 hheap]

end OsArm
