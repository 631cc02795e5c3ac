import OsArm.Base

/-!
# Runs of the kernel heap (`kmalloc.c`)

Any sequence of `kalloc` and `kfree`, from the start of the kernel on.  The check of
`kalloc` adds the position and the size in 64 bits.

* `HeapSafe` — what is handed out lies in the heap and does not overlap.
* `heapRun_append`, `heapRun_pos_le` — the regions of a run, call by call; the position stays
  inside the heap.
* `heapRun_regions` — without an overflow it only moves up, over what is handed out.
* `heap_safe_iff` — a run is safe if and only if no addition overflows.
-/

namespace OsArm

/-- `kfree`. -/
def kfree (h : Heap) (_ptr : Nat) : Heap := h

/-- A call. -/
inductive HeapCall
  | kalloc (size : UInt64)
  | kfree (ptr : Nat)

/-- What a call returns, `none` for `NULL`, and the heap after it. -/
def HeapCall.apply (h : Heap) : HeapCall → Option Nat × Heap
  | kalloc size =>
    match OsArm.kalloc h size.toNat with
    | none => (none, h)
    | some (p, h) => (some p, h)
  | kfree ptr => (none, OsArm.kfree h ptr)

/-- The bytes that a call has handed out: the offset in the heap and the size. -/
def HeapCall.region (h : Heap) : HeapCall → List (Nat × Nat)
  | kalloc size => ((HeapCall.kalloc size).apply h).1.toList.map fun p => (p, size.toNat)
  | kfree _ => []

/-- The regions handed out in a run, in order, and the heap after it. -/
def heapRun : Heap → List HeapCall → List (Nat × Nat) × Heap
  | h, [] => ([], h)
  | h, c :: cs => (c.region h ++ (heapRun (c.apply h).2 cs).1, (heapRun (c.apply h).2 cs).2)

/-- `heap_pos` at the start. -/
def Heap.init : Heap := { pos := 0 }

/-- No byte lies in both regions. -/
def Apart (a b : Nat × Nat) : Prop := ∀ x, ¬ ((a.1 ≤ x ∧ x < a.1 + a.2) ∧ b.1 ≤ x ∧ x < b.1 + b.2)

/-- **The heap is safe** in a run: what is handed out lies in the heap, two regions do not
overlap, and a call that returns `NULL` changes nothing. -/
structure HeapSafe (cs : List HeapCall) : Prop where
  inside : ∀ a ∈ (heapRun .init cs).1, a.1 + a.2 ≤ heapSize
  apart : (heapRun .init cs).1.Pairwise Apart
  unchanged : ∀ as c bs, cs = as ++ c :: bs → (c.apply (heapRun .init as).2).1 = none →
    (c.apply (heapRun .init as).2).2 = (heapRun .init as).2

/-- No addition of the run overflows: at each `kalloc`, position and size together stay
below `2 ^ 64`. -/
def NoOverflow (cs : List HeapCall) : Prop :=
  ∀ as size bs, cs = as ++ .kalloc size :: bs → (heapRun .init as).2.pos + size.toNat < 2 ^ 64

/-! ## One call -/

section Call

variable {h : Heap} {c : HeapCall} {size : UInt64}

/-- What `kalloc` does, by its check. -/
theorem HeapCall.apply_kalloc : (HeapCall.kalloc size).apply h =
    if (h.pos + size.toNat) % 2 ^ 64 > heapSize then (none, h)
    else (some h.pos, { pos := (h.pos + size.toNat) % 2 ^ 64 }) := by
  simp only [HeapCall.apply, OsArm.kalloc]
  by_cases hsum : (h.pos + size.toNat) % 2 ^ 64 > heapSize
  · rw [if_pos hsum, if_pos hsum]
  · rw [if_neg hsum, if_neg hsum]

/-- A call that returns `NULL` changes nothing. -/
theorem HeapCall.apply_none (hnone : (c.apply h).1 = none) : (c.apply h).2 = h := by
  cases c with
  | kfree ptr => rfl
  | kalloc size =>
    rw [apply_kalloc] at hnone ⊢
    split at hnone
    · next hsum => rw [if_pos hsum]
    · cases hnone

/-- The position stays inside the heap, also when the addition overflows. -/
theorem HeapCall.pos_le (hpos : h.pos ≤ heapSize) : (c.apply h).2.pos ≤ heapSize := by
  cases c with
  | kfree ptr => exact hpos
  | kalloc size =>
    rw [apply_kalloc]
    split
    · exact hpos
    · next hsum => exact Nat.not_lt.1 hsum

/-- Without an overflow a call hands out nothing, or what lies behind the position, which it
moves behind that. -/
theorem HeapCall.region_of_lt (hlt : h.pos + size.toNat < 2 ^ 64) :
    (HeapCall.kalloc size).region h = [] ∧ ((HeapCall.kalloc size).apply h).2 = h ∨
      (HeapCall.kalloc size).region h = [(h.pos, size.toNat)] ∧
        ((HeapCall.kalloc size).apply h).2.pos = h.pos + size.toNat ∧
        h.pos + size.toNat ≤ heapSize := by
  rw [region, apply_kalloc, Nat.mod_eq_of_lt hlt]
  by_cases hsum : h.pos + size.toNat > heapSize
  · rw [if_pos hsum]
    exact Or.inl ⟨rfl, rfl⟩
  · rw [if_neg hsum]
    exact Or.inr ⟨rfl, rfl, Nat.not_lt.1 hsum⟩

/-- With an overflow it hands out a region that does not lie in the heap. -/
theorem HeapCall.region_of_overflow (hpos : h.pos ≤ heapSize) (hle : 2 ^ 64 ≤ h.pos + size.toNat) :
    (HeapCall.kalloc size).region h = [(h.pos, size.toNat)] := by
  have hsize := size.toNat_lt
  have hsum : ¬ (h.pos + size.toNat) % 2 ^ 64 > heapSize := by omega
  rw [region, apply_kalloc, if_neg hsum]
  rfl

end Call

/-! ## Whole runs -/

theorem heapRun_append (h : Heap) (as bs : List HeapCall) :
    (heapRun h (as ++ bs)).1 = (heapRun h as).1 ++ (heapRun (heapRun h as).2 bs).1 ∧
      (heapRun h (as ++ bs)).2 = (heapRun (heapRun h as).2 bs).2 := by
  induction as generalizing h with
  | nil => exact ⟨rfl, rfl⟩
  | cons c cs ih =>
    obtain ⟨hregions, hheap⟩ := ih (c.apply h).2
    refine ⟨?_, hheap⟩
    rw [List.cons_append, heapRun, hregions, heapRun, List.append_assoc]

/-- The position stays inside the heap. -/
theorem heapRun_pos_le {h : Heap} (hpos : h.pos ≤ heapSize) (cs : List HeapCall) :
    (heapRun h cs).2.pos ≤ heapSize := by
  induction cs generalizing h with
  | nil => exact hpos
  | cons c cs ih => exact ih (HeapCall.pos_le hpos)

/-- **Without an overflow** everything handed out lies behind the first position and before
the last one, and no two regions overlap. -/
theorem heapRun_regions {h : Heap} {cs : List HeapCall} (hpos : h.pos ≤ heapSize)
    (hno : ∀ as size bs, cs = as ++ .kalloc size :: bs →
      (heapRun h as).2.pos + size.toNat < 2 ^ 64) :
    h.pos ≤ (heapRun h cs).2.pos ∧ (heapRun h cs).1.Pairwise Apart ∧
      ∀ a ∈ (heapRun h cs).1, h.pos ≤ a.1 ∧ a.1 + a.2 ≤ (heapRun h cs).2.pos := by
  induction cs generalizing h with
  | nil => exact ⟨Nat.le_refl _, List.Pairwise.nil, by simp [heapRun]⟩
  | cons c cs ih =>
    have hno' : ∀ as size bs, cs = as ++ .kalloc size :: bs →
        (heapRun (c.apply h).2 as).2.pos + size.toNat < 2 ^ 64 := by
      rintro as size bs rfl
      exact hno (c :: as) size bs rfl
    obtain ⟨hmono, hpair, hmem⟩ := ih (HeapCall.pos_le hpos) hno'
    -- the call hands out nothing, or one region below everything that comes later
    have hcall : c.region h = [] ∧ (c.apply h).2 = h ∨ ∃ size, c.region h = [(h.pos, size)] ∧
        (c.apply h).2.pos = h.pos + size := by
      cases c with
      | kfree ptr => exact Or.inl ⟨rfl, rfl⟩
      | kalloc size =>
        rcases HeapCall.region_of_lt (hno [] size cs rfl) with hnone | ⟨hregion, hmove, -⟩
        · exact Or.inl hnone
        · exact Or.inr ⟨_, hregion, hmove⟩
    rw [heapRun]
    rcases hcall with ⟨hregion, hsame⟩ | ⟨size, hregion, hmove⟩
    · rw [hsame] at hmono hpair hmem ⊢
      rw [hregion]
      exact ⟨hmono, hpair, hmem⟩
    · rw [hmove] at hmono hmem
      rw [hregion]
      refine ⟨Nat.le_trans (Nat.le_add_right _ _) hmono, ?_, ?_⟩
      · refine List.pairwise_cons.2 ⟨?_, hpair⟩
        rintro ⟨b, n⟩ hb x ⟨hx, hx'⟩
        have hle := (hmem _ hb).1
        dsimp only at hx hx' hle
        omega
      · intro a ha
        rcases List.mem_cons.1 ha with rfl | ha
        · exact ⟨Nat.le_refl _, hmono⟩
        · obtain ⟨hstart, hend⟩ := hmem a ha
          exact ⟨Nat.le_trans (Nat.le_add_right _ _) hstart, hend⟩

/-- **The heap is safe** in a run if and only if no addition overflows. -/
theorem heap_safe_iff (cs : List HeapCall) : HeapSafe cs ↔ NoOverflow cs := by
  have hinit : Heap.init.pos ≤ heapSize := Nat.zero_le _
  constructor
  · rintro hsafe as size bs rfl
    by_contra hlt
    have hpos := heapRun_pos_le hinit as
    have hregion := HeapCall.region_of_overflow hpos (Nat.not_lt.1 hlt)
    have hmem : ((heapRun .init as).2.pos, size.toNat) ∈
        (heapRun .init (as ++ .kalloc size :: bs)).1 := by
      rw [(heapRun_append _ _ _).1, heapRun, hregion]
      simp
    have hinside := hsafe.inside _ hmem
    simp only [heapSize] at hinside
    omega
  · intro hno
    obtain ⟨-, hpair, hmem⟩ := heapRun_regions hinit hno
    have hpos := heapRun_pos_le hinit cs
    exact ⟨fun a ha => Nat.le_trans (hmem a ha).2 hpos, hpair,
      fun as c bs _ hnone => HeapCall.apply_none hnone⟩

/-- After 16 bytes, a request for `2 ^ 64 - 8` bytes succeeds. -/
theorem kalloc_overflows : ¬ HeapSafe [.kalloc 16, .kalloc 0xFFFFFFFFFFFFFFF8] := by
  intro hsafe
  have hregions : (heapRun .init [.kalloc 16, .kalloc 0xFFFFFFFFFFFFFFF8]).1 =
      [(0, 16), (16, 0xFFFFFFFFFFFFFFF8)] := by decide +kernel
  have hinside := hsafe.inside (16, 0xFFFFFFFFFFFFFFF8) (by rw [hregions]; simp)
  exact absurd hinside (by decide)

end OsArm
