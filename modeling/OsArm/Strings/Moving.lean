import OsArm.CString

/-!
# `memmove` and `memcpy` with 64-bit pointers (`string.c`)

The two loops as they run on the machine: `d` and `s` are 64-bit pointers that are stepped with
wrap-around, and every turn reads the memory that the turns before it have left.

* `Ptr.copyUp`, `Ptr.copyDown` — the loops; `copyUp_blit`, `copyDown_blit` are their invariants: a
  piece of the destination holds the bytes that the source had at first.
* `Ptr.memmove_eq` — this is the `memmove` of `CString` where no range wraps.
* `memmove_buffered` — `memmove` copies as if through a temporary, and like `memcpy` where the
  ranges are apart or the destination is below the source.
-/

namespace OsArm

/-- A pointer. -/
abbrev Ptr := UInt64

namespace Ptr

/-! ## The loops -/

/-- `while (n--) *d++ = *s++;` -/
def copyUp (m : ByteMem) (d s : Ptr) : Nat → ByteMem
  | 0 => m
  | n + 1 => copyUp (m.set d.toNat (m s.toNat)) (d + 1) (s + 1) n

/-- `while (n--) *--d = *--s;` -/
def copyDown (m : ByteMem) (d s : Ptr) : Nat → ByteMem
  | 0 => m
  | n + 1 => copyDown (m.set (d - 1).toNat (m (s - 1).toNat)) (d - 1) (s - 1) n

/-- `memcpy(dst, src, n)`; what it returns is `dst`. -/
def memcpy (m : ByteMem) (dst src : Ptr) (n : UInt64) : ByteMem := copyUp m dst src n.toNat

/-- `memmove(dest, src, n)`; what it returns is `dest`. -/
def memmove (m : ByteMem) (dest src : Ptr) (n : UInt64) : ByteMem :=
  if dest > src ∧ dest < src + n then copyDown m (dest + n) (src + n) n.toNat
  else copyUp m dest src n.toNat

/-! ## Pointers -/

section Pointers

variable {d s : Ptr} {k : Nat}

/-- A pointer that is stepped inside a range has not wrapped. -/
theorem toNat_step (h : d.toNat + k < 2 ^ 64) : (d + UInt64.ofNat k).toNat = d.toNat + k := by
  rw [UInt64.toNat_add, UInt64.toNat_ofNat', Nat.add_mod_mod, Nat.mod_eq_of_lt h]

/-- `d++`. -/
theorem step_succ : d + UInt64.ofNat k + 1 = d + UInt64.ofNat (k + 1) := by
  rw [UInt64.ofNat_add, UInt64.add_assoc]
  rfl

/-- `--d`. -/
theorem step_pred : d + UInt64.ofNat (k + 1) - 1 = d + UInt64.ofNat k := by
  rw [← step_succ]
  exact UInt64.add_sub_cancel _ _

end Pointers

/-! ## Their invariants -/

section Loops

variable {m : ByteMem} {d s : Ptr}

/-- **Copying upwards**, after `k` turns: the byte that is read next has not been overwritten, for
the destination does not lie inside the source. -/
theorem copyUp_blit {k n : Nat} (hd : d.toNat + (k + n) ≤ 2 ^ 64) (hs : s.toNat + (k + n) ≤ 2 ^ 64)
    (happart : d.toNat ≤ s.toNat ∨ s.toNat + (k + n) ≤ d.toNat) :
    copyUp (m.blit d.toNat k fun i => m (s.toNat + i)) (d + UInt64.ofNat k) (s + UInt64.ofNat k) n =
      m.blit d.toNat (k + n) fun i => m (s.toNat + i) := by
  induction n generalizing k with
  | zero => rfl
  | succ n ih =>
    have hunread : m.blit d.toNat k (fun i => m (s.toNat + i)) (s.toNat + k) = m (s.toNat + k) :=
      ByteMem.blit_outside (by omega)
    rw [copyUp, toNat_step (by omega), toNat_step (by omega), hunread,
      ByteMem.blit_succ m d.toNat k fun i => m (s.toNat + i), step_succ, step_succ,
      ih (by omega) (by omega) (by omega)]
    congr 1
    omega

/-- **Copying downwards**, with `n` turns to go: the byte that is read next lies below all that
has been overwritten. -/
theorem copyDown_blit {k n : Nat} (hd : d.toNat + (n + k) ≤ 2 ^ 64) (hle : s.toNat ≤ d.toNat) :
    copyDown (m.blit (d.toNat + n) k fun i => m (s.toNat + n + i)) (d + UInt64.ofNat n)
        (s + UInt64.ofNat n) n =
      m.blit d.toNat (n + k) fun i => m (s.toNat + i) := by
  induction n generalizing k with
  | zero => rw [copyDown, Nat.zero_add, Nat.add_zero, Nat.add_zero]
  | succ n ih =>
    have hunread : m.blit (d.toNat + (n + 1)) k (fun i => m (s.toNat + (n + 1) + i)) (s.toNat + n) =
        m (s.toNat + n) := ByteMem.blit_outside (by omega)
    have hgrow : (m.blit (d.toNat + (n + 1)) k fun i => m (s.toNat + (n + 1) + i)).set
        (d.toNat + n) (m (s.toNat + n)) = m.blit (d.toNat + n) (k + 1) fun i =>
          m (s.toNat + n + i) := by
      rw [← ByteMem.blit_pred m (d.toNat + n) k fun i => m (s.toNat + n + i)]
      simp only [Nat.add_assoc, Nat.add_comm 1, Nat.add_zero]
    rw [copyDown, step_pred, step_pred, toNat_step (by omega),
      toNat_step (by omega), hunread, hgrow, ih (by omega)]
    congr 1
    omega

end Loops

/-! ## Whole copies -/

section Copies

variable {m : ByteMem} {dest src : Ptr} {n : UInt64}

/-- The forward loop from its start. -/
theorem copyUp_eq (hd : dest.toNat + n.toNat ≤ 2 ^ 64) (hs : src.toNat + n.toNat ≤ 2 ^ 64)
    (happart : dest.toNat ≤ src.toNat ∨ src.toNat + n.toNat ≤ dest.toNat) :
    copyUp m dest src n.toNat = m.blit dest.toNat n.toNat fun i => m (src.toNat + i) := by
  have hloop := copyUp_blit (m := m) (k := 0) (n := n.toNat) (by omega) (by omega)
    (show dest.toNat ≤ src.toNat ∨ src.toNat + (0 + n.toNat) ≤ dest.toNat by omega)
  rw [ByteMem.blit_zero, Nat.zero_add] at hloop
  rw [← hloop]
  congr 1 <;> exact (UInt64.add_zero _).symm

/-- The backward loop from its start. -/
theorem copyDown_eq (hd : dest.toNat + n.toNat ≤ 2 ^ 64) (hle : src.toNat ≤ dest.toNat) :
    copyDown m (dest + n) (src + n) n.toNat = m.blit dest.toNat n.toNat fun i =>
      m (src.toNat + i) := by
  have hloop := copyDown_blit (m := m) (k := 0) (n := n.toNat) (by omega) hle
  rwa [ByteMem.blit_zero, Nat.add_zero, UInt64.ofNat_toNat] at hloop

/-- **Where neither range wraps**, the destination gets what the source had at first. -/
theorem memmove_eq_blit (hd : dest.toNat + n.toNat ≤ 2 ^ 64) (hs : src.toNat + n.toNat ≤ 2 ^ 64) :
    memmove m dest src n = m.blit dest.toNat n.toNat fun i => m (src.toNat + i) := by
  unfold memmove
  by_cases hgt : dest > src
  · have hlt := UInt64.lt_iff_toNat_lt.1 hgt
    -- the source ends in front of the destination's end, so that `s + n` does not wrap
    have hend : (src + n).toNat = src.toNat + n.toNat := by
      rw [UInt64.toNat_add, Nat.mod_eq_of_lt (by omega)]
    by_cases hin : dest < src + n
    · rw [if_pos ⟨hgt, hin⟩]
      exact copyDown_eq hd (by omega)
    · rw [if_neg fun h => hin h.2]
      rw [UInt64.lt_iff_toNat_lt, hend] at hin
      exact copyUp_eq hd hs (by omega)
  · rw [if_neg fun h => hgt h.1]
    have hle := mt UInt64.lt_iff_toNat_lt.2 hgt
    exact copyUp_eq hd hs (by omega)

/-- `memcpy` gives the same, unless the destination lies inside the source. -/
theorem memcpy_eq_blit (hd : dest.toNat + n.toNat ≤ 2 ^ 64) (hs : src.toNat + n.toNat ≤ 2 ^ 64)
    (happart : dest.toNat ≤ src.toNat ∨ src.toNat + n.toNat ≤ dest.toNat) :
    memcpy m dest src n = m.blit dest.toNat n.toNat fun i => m (src.toNat + i) :=
  copyUp_eq hd hs happart

/-- The `memmove` of the file systems is this one, with addresses that do not wrap. -/
theorem memmove_eq (hd : dest.toNat + n.toNat ≤ 2 ^ 64) (hs : src.toNat + n.toNat ≤ 2 ^ 64) :
    memmove m dest src n = OsArm.memmove m dest.toNat src.toNat n.toNat := by
  rw [memmove_eq_blit hd hs, OsArm.memmove_eq]

end Copies

end Ptr

/-- **`memmove` copies as if through a temporary.**  For any two ranges that do not wrap, however
they overlap, the destination holds the old bytes of the source, and nothing else has changed; where
the ranges are apart, and where the destination is below the source, this is what `memcpy` does. -/
theorem memmove_buffered {m : ByteMem} {dest src : Ptr} {n : UInt64}
    (hd : dest.toNat + n.toNat ≤ 2 ^ 64) (hs : src.toNat + n.toNat ≤ 2 ^ 64) :
    (∀ i < n.toNat, Ptr.memmove m dest src n (dest.toNat + i) = m (src.toNat + i)) ∧
    (∀ x, x < dest.toNat ∨ dest.toNat + n.toNat ≤ x → Ptr.memmove m dest src n x = m x) ∧
    (dest.toNat + n.toNat ≤ src.toNat ∨ src.toNat + n.toNat ≤ dest.toNat ∨ dest < src →
      Ptr.memmove m dest src n = Ptr.memcpy m dest src n) := by
  rw [Ptr.memmove_eq_blit hd hs]
  refine ⟨?_, ?_, ?_⟩
  · intro i hi
    exact ByteMem.blit_add hi
  · intro x hx
    exact ByteMem.blit_outside hx
  · intro happart
    refine (Ptr.memcpy_eq_blit hd hs ?_).symm
    rcases happart with hbelow | habove | hlt
    · exact Or.inl (by omega)
    · exact Or.inr habove
    · exact Or.inl (Nat.le_of_lt (UInt64.lt_iff_toNat_lt.1 hlt))

/-- Three bytes, moved up by one over themselves. -/
theorem memmove_buffered_overlap :
    Ptr.memmove (fun x => UInt8.ofNat x) 101 100 3 101 = 100 ∧
    Ptr.memmove (fun x => UInt8.ofNat x) 101 100 3 102 = 101 ∧
    Ptr.memmove (fun x => UInt8.ofNat x) 101 100 3 103 = 102 := by
  have hd : (101 : Ptr).toNat + (3 : UInt64).toNat ≤ 2 ^ 64 := by decide
  have hs : (100 : Ptr).toNat + (3 : UInt64).toNat ≤ 2 ^ 64 := by decide
  have hmoved := (memmove_buffered (m := fun x => UInt8.ofNat x) hd hs).1
  exact ⟨hmoved 0 (by decide), hmoved 1 (by decide), hmoved 2 (by decide)⟩

end OsArm
