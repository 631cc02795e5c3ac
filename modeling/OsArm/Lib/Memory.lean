import Mathlib

/-!
# Byte memory

Memory as a function from addresses to bytes, with the block update every copy
loop comes down to.

* `ByteMem.set`, `ByteMem.blit` — overwrite one address, or a range of them;
  `blit_inside`, `blit_outside` say what a later read sees.
* `ByteMem.word`, `ByteMem.setWord` — 32-bit words, least significant byte
  first; `word_setWord` is the round trip.
* `ByteMem.dword`, `ByteMem.setDword`, `ByteMem.setDwords` — 64-bit words, one
  and a row of them; `dword_setDwords` is the round trip.
* `ByteMem.CStringAt` — the string stored at an address, terminator included;
  `CStringAt.move` carries it along a copy and `CStringAt.unique` says that an
  address holds at most one string.
* `ByteMem.cstring` — reading that string back.
-/

/-- Every address holds one byte. -/
abbrev ByteMem := Nat → UInt8

namespace ByteMem

/-! ## Updates -/

/-- Overwrite one byte. -/
def set (m : ByteMem) (a : Nat) (v : UInt8) : ByteMem := fun x => if x = a then v else m x

@[simp] theorem set_self (m : ByteMem) (a : Nat) (v : UInt8) : m.set a v a = v := if_pos rfl

theorem set_of_ne {m : ByteMem} {a x : Nat} {v : UInt8} (h : x ≠ a) : m.set a v x = m x :=
  if_neg h

/-- Overwrite the `n` bytes from address `a` on with `f 0, f 1, …`. -/
def blit (m : ByteMem) (a n : Nat) (f : Nat → UInt8) : ByteMem :=
  fun x => if a ≤ x ∧ x < a + n then f (x - a) else m x

theorem blit_inside {m : ByteMem} {a n : Nat} {f : Nat → UInt8} {x : Nat} (h₁ : a ≤ x)
    (h₂ : x < a + n) : m.blit a n f x = f (x - a) := if_pos ⟨h₁, h₂⟩

theorem blit_outside {m : ByteMem} {a n : Nat} {f : Nat → UInt8} {x : Nat}
    (h : x < a ∨ a + n ≤ x) : m.blit a n f x = m x := if_neg (by omega)

theorem blit_add {m : ByteMem} {a n i : Nat} {f : Nat → UInt8} (h : i < n) :
    m.blit a n f (a + i) = f i := by
  rw [blit_inside (Nat.le_add_right a i) (by omega), Nat.add_sub_cancel_left]

@[simp] theorem blit_zero (m : ByteMem) (a : Nat) (f : Nat → UInt8) : m.blit a 0 f = m := by
  funext x
  exact blit_outside (by omega)

theorem blit_congr {m : ByteMem} {a n : Nat} {f g : Nat → UInt8} (h : ∀ i < n, f i = g i) :
    m.blit a n f = m.blit a n g := by
  funext x
  by_cases hin : a ≤ x ∧ x < a + n
  · rw [blit_inside hin.1 hin.2, blit_inside hin.1 hin.2, h _ (by omega)]
  · rw [blit_outside (by omega), blit_outside (by omega)]

/-- A block grows by one byte at its end. -/
theorem blit_succ (m : ByteMem) (a n : Nat) (f : Nat → UInt8) :
    (m.blit a n f).set (a + n) (f n) = m.blit a (n + 1) f := by
  funext x
  by_cases hx : x = a + n
  · rw [hx, set_self, blit_add (by omega)]
  · rw [set_of_ne hx]
    by_cases hin : a ≤ x ∧ x < a + n
    · rw [blit_inside hin.1 hin.2, blit_inside hin.1 (by omega)]
    · rw [blit_outside (by omega), blit_outside (by omega)]

/-- A block grows by one byte at its front. -/
theorem blit_cons (m : ByteMem) (a n : Nat) (f : Nat → UInt8) :
    (m.set a (f 0)).blit (a + 1) n (fun i => f (i + 1)) = m.blit a (n + 1) f := by
  funext x
  by_cases hx : x = a
  · rw [hx, blit_outside (by omega), set_self, blit_inside (by omega) (by omega), Nat.sub_self]
  · by_cases hin : a + 1 ≤ x ∧ x < a + 1 + n
    · rw [blit_inside hin.1 hin.2, blit_inside (by omega) (by omega)]
      exact congrArg f (by omega)
    · rw [blit_outside (by omega), set_of_ne hx, blit_outside (by omega)]

/-- A block grows by one byte at its front, which is stored last. -/
theorem blit_pred (m : ByteMem) (a n : Nat) (f : Nat → UInt8) :
    (m.blit (a + 1) n fun i => f (i + 1)).set a (f 0) = m.blit a (n + 1) f := by
  rw [← blit_cons]
  funext x
  by_cases hx : x = a
  · rw [hx, set_self, blit_outside (by omega), set_self]
  · rw [set_of_ne hx]
    by_cases hin : a + 1 ≤ x ∧ x < a + 1 + n
    · rw [blit_inside hin.1 hin.2, blit_inside hin.1 hin.2]
    · rw [blit_outside (by omega), blit_outside (by omega), set_of_ne hx]

/-! ## 32-bit words -/

/-- The 32-bit word at an address, least significant byte first. -/
def word (m : ByteMem) (a : Nat) : Nat :=
  (m a).toNat + 256 * (m (a + 1)).toNat + 65536 * (m (a + 2)).toNat +
    16777216 * (m (a + 3)).toNat

/-- Store the low 32 bits of `v`, least significant byte first. -/
def setWord (m : ByteMem) (a v : Nat) : ByteMem :=
  m.blit a 4 (fun i => UInt8.ofNat (v / 256 ^ i))

theorem word_setWord (m : ByteMem) (a v : Nat) : (m.setWord a v).word a = v % 2 ^ 32 := by
  have h : ∀ i < 4, m.setWord a v (a + i) = UInt8.ofNat (v / 256 ^ i) := fun i hi =>
    blit_add hi
  have h0 := h 0 (by omega)
  rw [Nat.add_zero] at h0
  simp only [word, h0, h 1 (by omega), h 2 (by omega), h 3 (by omega), UInt8.toNat_ofNat']
  omega

theorem setWord_outside {m : ByteMem} {a v x : Nat} (h : x < a ∨ a + 4 ≤ x) :
    m.setWord a v x = m x := blit_outside h

/-- A word depends on its four bytes only. -/
theorem word_congr {m m' : ByteMem} {a b : Nat} (h : ∀ i < 4, m' (b + i) = m (a + i)) :
    m'.word b = m.word a := by
  have h0 := h 0 (by omega)
  simp only [Nat.add_zero] at h0
  simp only [word, h0, h 1 (by omega), h 2 (by omega), h 3 (by omega)]

/-! ## 64-bit words -/

/-- The 64-bit word at an address, least significant byte first. -/
def dword (m : ByteMem) (a : Nat) : UInt64 :=
  UInt64.ofNat (m.word a + 2 ^ 32 * m.word (a + 4))

/-- Store a 64-bit word, least significant byte first. -/
def setDword (m : ByteMem) (a : Nat) (v : UInt64) : ByteMem :=
  (m.setWord a v.toNat).setWord (a + 4) (v.toNat / 2 ^ 32)

theorem setDword_outside {m : ByteMem} {a x : Nat} {v : UInt64} (h : x < a ∨ a + 8 ≤ x) :
    m.setDword a v x = m x := by
  rw [setDword, setWord_outside (by omega), setWord_outside (by omega)]

theorem dword_setDword (m : ByteMem) (a : Nat) (v : UInt64) : (m.setDword a v).dword a = v := by
  have hlow : (m.setDword a v).word a = v.toNat % 2 ^ 32 := by
    rw [← word_setWord m a v.toNat, setDword]
    refine word_congr ?_
    intro i hi
    exact setWord_outside (by omega)
  have hhigh : (m.setDword a v).word (a + 4) = v.toNat / 2 ^ 32 % 2 ^ 32 := word_setWord ..
  have hlt : v.toNat < 2 ^ 64 := v.toNat_lt
  rw [dword, hlow, hhigh]
  have hsum : v.toNat % 2 ^ 32 + 2 ^ 32 * (v.toNat / 2 ^ 32 % 2 ^ 32) = v.toNat := by omega
  rw [hsum]
  exact UInt64.ofNat_toNat

/-- A 64-bit word depends on its eight bytes only. -/
theorem dword_congr {m m' : ByteMem} {a b : Nat} (h : ∀ i < 8, m' (b + i) = m (a + i)) :
    m'.dword b = m.dword a := by
  have hhigh : m'.word (b + 4) = m.word (a + 4) := by
    refine word_congr ?_
    intro i hi
    have hi' := h (4 + i) (by omega)
    rwa [← Nat.add_assoc, ← Nat.add_assoc] at hi'
  rw [dword, dword, word_congr fun i hi => h i (by omega), hhigh]

theorem dword_setDword_of_ne {m : ByteMem} {a b : Nat} {v : UInt64} (h : b + 8 ≤ a ∨ a + 8 ≤ b) :
    (m.setDword a v).dword b = m.dword b :=
  dword_congr fun _ _ => setDword_outside (by omega)

/-- Store the `n` words `f 0, f 1, …` one after the other. -/
def setDwords (m : ByteMem) (a : Nat) (f : Nat → UInt64) : Nat → ByteMem
  | 0 => m
  | n + 1 => (setDwords m a f n).setDword (a + 8 * n) (f n)

theorem setDwords_outside {m : ByteMem} {a n x : Nat} {f : Nat → UInt64}
    (h : x < a ∨ a + 8 * n ≤ x) : m.setDwords a f n x = m x := by
  induction n with
  | zero => rfl
  | succ n ih =>
    rw [setDwords, setDword_outside (by omega)]
    exact ih (by omega)

theorem dword_setDwords {m : ByteMem} {a n i : Nat} {f : Nat → UInt64} (hi : i < n) :
    (m.setDwords a f n).dword (a + 8 * i) = f i := by
  induction n with
  | zero => omega
  | succ n ih =>
    rw [setDwords]
    by_cases hin : i = n
    · rw [hin, dword_setDword]
    · rw [dword_setDword_of_ne (by omega)]
      exact ih (by omega)

/-- A word outside the row stays. -/
theorem dword_setDwords_outside {m : ByteMem} {a n b : Nat} {f : Nat → UInt64}
    (h : b + 8 ≤ a ∨ a + 8 * n ≤ b) : (m.setDwords a f n).dword b = m.dword b :=
  dword_congr fun _ _ => setDwords_outside (by omega)

/-! ## Strings in memory -/

/-- The string `s` is stored at `a`, followed by its terminator. -/
def CStringAt (m : ByteMem) (a : Nat) (s : List UInt8) : Prop :=
  (∀ i (h : i < s.length), m (a + i) = s[i]) ∧ m (a + s.length) = 0

theorem cstringAt_nil {m : ByteMem} {a : Nat} : m.CStringAt a [] ↔ m a = 0 := by
  simp [CStringAt]

theorem cstringAt_cons {m : ByteMem} {a : Nat} {c : UInt8} {s : List UInt8} :
    m.CStringAt a (c :: s) ↔ m a = c ∧ m.CStringAt (a + 1) s := by
  constructor
  · rintro ⟨hbytes, hend⟩
    refine ⟨hbytes 0 (by simp), ?_, ?_⟩
    · intro i hi
      have := hbytes (i + 1) (by simpa using hi)
      rw [show a + 1 + i = a + (i + 1) by omega, this]
      simp
    · rw [show a + 1 + s.length = a + (c :: s).length by simp; omega]
      exact hend
  · rintro ⟨h0, hbytes, hend⟩
    refine ⟨?_, ?_⟩
    · intro i hi
      cases i with
      | zero => simpa using h0
      | succ i =>
        rw [show a + (i + 1) = a + 1 + i by omega, hbytes i (by simpa using hi)]
        simp
    · rw [show a + (c :: s).length = a + 1 + s.length by simp; omega]
      exact hend

/-- A string moves with its bytes. -/
theorem CStringAt.move {m m' : ByteMem} {a b : Nat} {s : List UInt8} (hs : m.CStringAt a s)
    (h : ∀ i < s.length + 1, m' (b + i) = m (a + i)) : m'.CStringAt b s := by
  refine ⟨?_, ?_⟩
  · intro i hi
    rw [h i (by omega), hs.1 i hi]
  · rw [h s.length (by omega), hs.2]

/-- The end of a string is a string. -/
theorem CStringAt.drop {m : ByteMem} {a n : Nat} {s : List UInt8} (h : m.CStringAt a s)
    (hn : n ≤ s.length) : m.CStringAt (a + n) (s.drop n) := by
  refine ⟨?_, ?_⟩
  · intro i hi
    rw [List.length_drop] at hi
    rw [List.getElem_drop, Nat.add_assoc, h.1 (n + i) (by omega)]
  · rw [List.length_drop, Nat.add_assoc, Nat.add_sub_cancel' hn, h.2]

/-- A string is cut off by a terminator. -/
theorem CStringAt.cut {m : ByteMem} {a n : Nat} {s : List UInt8} (h : m.CStringAt a s)
    (hn : n ≤ s.length) : (m.set (a + n) 0).CStringAt a (s.take n) := by
  have hlen : (s.take n).length = n := List.length_take_of_le hn
  refine ⟨?_, ?_⟩
  · intro i hi
    rw [hlen] at hi
    rw [set_of_ne (by omega), h.1 i (by omega), List.getElem_take]
  · rw [hlen, set_self]

/-- A string is empty just if the terminator comes first. -/
theorem CStringAt.eq_nil_iff {m : ByteMem} {a : Nat} {s : List UInt8} (h : m.CStringAt a s)
    (h0 : (0 : UInt8) ∉ s) : m a = 0 ↔ s = [] := by
  cases s with
  | nil => exact iff_of_true (cstringAt_nil.1 h) rfl
  | cons c s =>
    refine iff_of_false (fun hzero => h0 ?_) (List.cons_ne_nil c s)
    rw [← hzero, (cstringAt_cons.1 h).1]
    exact List.mem_cons_self

/-- An address holds at most one string. -/
theorem CStringAt.unique {m : ByteMem} {a : Nat} {s t : List UInt8} (hs : m.CStringAt a s)
    (ht : m.CStringAt a t) (hs0 : (0 : UInt8) ∉ s) (ht0 : (0 : UInt8) ∉ t) : s = t := by
  induction s generalizing a t with
  | nil =>
    cases t with
    | nil => rfl
    | cons d t =>
      have h1 := cstringAt_nil.1 hs
      have h2 := (cstringAt_cons.1 ht).1
      exact absurd (h1.symm.trans h2) (fun h => ht0 (by simp [← h]))
  | cons c s ih =>
    cases t with
    | nil =>
      have h1 := cstringAt_nil.1 ht
      have h2 := (cstringAt_cons.1 hs).1
      exact absurd (h1.symm.trans h2) (fun h => hs0 (by simp [← h]))
    | cons d t =>
      obtain ⟨hc, hs'⟩ := cstringAt_cons.1 hs
      obtain ⟨hd, ht'⟩ := cstringAt_cons.1 ht
      have htail : s = t := ih hs' ht' (fun h => hs0 (List.mem_cons_of_mem _ h))
        (fun h => ht0 (List.mem_cons_of_mem _ h))
      rw [htail, hc.symm.trans hd]

/-- Read a string: the bytes from `a` up to the first zero, `fuel` at most. -/
def cstring (m : ByteMem) : Nat → Nat → List UInt8
  | 0, _ => []
  | fuel + 1, a => if m a = 0 then [] else m a :: cstring m fuel (a + 1)

/-- What is read back has no terminator in it. -/
theorem zero_notMem_cstring (m : ByteMem) (fuel a : Nat) : (0 : UInt8) ∉ m.cstring fuel a := by
  induction fuel generalizing a with
  | zero => exact List.not_mem_nil
  | succ fuel ih =>
    rw [cstring]
    split
    · exact List.not_mem_nil
    · next h =>
      rw [List.mem_cons]
      rintro (h0 | hmem)
      · exact h h0.symm
      · exact ih (a + 1) hmem

/-- Reading a stored string gives that string. -/
theorem CStringAt.cstring_eq {m : ByteMem} {a fuel : Nat} {s : List UInt8}
    (hs : m.CStringAt a s) (hs0 : (0 : UInt8) ∉ s) (hf : s.length < fuel) :
    m.cstring fuel a = s := by
  induction s generalizing a fuel with
  | nil =>
    obtain ⟨f, rfl⟩ : ∃ f, fuel = f + 1 := ⟨fuel - 1, by simp at hf; omega⟩
    rw [cstring, if_pos (cstringAt_nil.1 hs)]
  | cons c s ih =>
    obtain ⟨f, rfl⟩ : ∃ f, fuel = f + 1 := ⟨fuel - 1, by simp at hf; omega⟩
    obtain ⟨hc, hs'⟩ := cstringAt_cons.1 hs
    have hne : c ≠ 0 := by
      rintro rfl
      exact hs0 (by simp)
    rw [cstring, hc, if_neg hne, ih hs' (fun h => hs0 (List.mem_cons_of_mem _ h))
      (by simp at hf; omega)]

end ByteMem
