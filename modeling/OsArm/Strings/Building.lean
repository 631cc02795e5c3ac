import OsArm.Strings.Tokens
import OsArm.Vfs.Basic

/-!
# Putting strings together in memory (`string.c`, and the paths of `vfs.c`)

`strcpy`, `strcat` and `strncpy` with their loops, and the buffer `full_path` that the entry
points of the VFS fill with them.

* `Mem.strcpy`, `Mem.strcat`, `Mem.strncpy`, `Mem.fullPath` — the code; a loop that has
  no count of its own has at most `fuel` turns.
* `strcat_ends_iff` — `strcat` returns just if the terminator it writes over is not one of the
  bytes it copies, and then the strings stand one behind the other.
* `strncpy_pads` — `strncpy` fills `n` bytes, whatever is at the source.
* `fullPath_joins` — `full_path`, where it has room, holds the path that the model of the VFS goes
  on with, unless the working directory is empty and there happens to be a slash in front of the
  buffer.
-/

namespace OsArm

open Code (load store stuck Ends)

namespace Mem

/-! ## The functions -/

/-- The copy loop of `strcpy` and `strcat`. -/
def strcpyLoop : Nat → Nat → Nat → Code Unit
  | 0, _, _ => stuck
  | fuel + 1, d, src => do
    let x ← load src
    store d x
    if x = 0 then return ()
    else strcpyLoop fuel (d + 1) (src + 1)

/-- `strcpy(dest, src)`. -/
def strcpy (fuel dest src : Nat) : Code Nat := do
  strcpyLoop fuel dest src
  return dest

/-- `strcat(dest, src)`; its first loop is that of `strlen`. -/
def strcat (fuel dest src : Nat) : Code Nat := do
  let d ← strlenLoop fuel dest
  strcpyLoop fuel d src
  return dest

/-- The first loop of `strncpy`, with `left` turns to go: `i` after it. -/
def strncpyLoop (dest src : Nat) : Nat → Nat → Code Nat
  | 0, i => return i
  | left + 1, i => do
    let x ← load (src + i)
    if x = 0 then return i
    else
      let y ← load (src + i)
      store (dest + i) y
      strncpyLoop dest src left (i + 1)

/-- The second loop of `strncpy`. -/
def padLoop (dest : Nat) : Nat → Nat → Code Unit
  | 0, _ => return ()
  | left + 1, i => do
    store (dest + i) 0
    padLoop dest left (i + 1)

/-- `strncpy(dest, src, n)`. -/
def strncpy (dest src n : Nat) : Code Nat := do
  let i ← strncpyLoop dest src n 0
  padLoop dest (n - i) i
  return dest

/-- What `vfs_create`, `vfs_unlink`, `vfs_mkdir` and `vfs_remove_recursive` begin with; `sep` is
where the literal `"/"` is. -/
def fullPath (fuel full cwd path sep : Nat) : Code Unit := do
  let x ← load path
  if x ≠ slash then do
    let _ ← strcpy fuel full cwd
    let n ← strlen fuel full
    let y ← load (full + n - 1)
    if y ≠ slash then do
      let _ ← strcat fuel full sep
      let _ ← strcat fuel full path
      return ()
    else do
      let _ ← strcat fuel full path
      return ()
  else do
    let _ ← strcpy fuel full path
    return ()

/-! ## The loops -/

section Loops

variable {m m' : ByteMem} {S : Nat → Prop} {a d fuel turns left i n x : Nat}
  {u t : Str} {c v : UInt8}

/-- A string stays as it is when other bytes change. -/
theorem Scanned.of_frame (h : Scanned m S a u turns)
    (hframe : ∀ i < u.length + 1, m' (a + i) = m (a + i)) :
    Scanned m' S a u turns := ⟨h.str.move hframe, h.nul_free, h.turns_gt, h.inside⟩

/-- **The copy loop** copies a string whose bytes it does not overtake. -/
theorem strcpyLoop_ends (hu : Scanned m S a u turns) (hd : ∀ x, d ≤ x → x ≤ d + u.length → S x)
    (happart : d ≤ a ∨ a + u.length < d) : Ends (strcpyLoop turns d a) m S ()
    (OsArm.strcpy m d u) := by
  induction u generalizing m a d turns with
  | nil =>
    obtain ⟨turns, rfl⟩ := hu.exists_turn
    refine .bind hu.load (.bind (.store (hd d (Nat.le_refl d) (Nat.le_add_right _ _))) ?_)
    rw [if_pos hu.nil, hu.nil]
    exact .pure ()
  | cons c u ih =>
    obtain ⟨turns, rfl⟩ := hu.exists_turn
    obtain ⟨hc, hne, hrest⟩ := hu.cons
    rw [List.length_cons] at hd happart
    refine .bind hu.load (.bind (.store (hd d (Nat.le_refl d) (Nat.le_add_right _ _))) ?_)
    rw [hc, if_neg hne]
    refine ih (hrest.of_frame fun i hi => ByteMem.set_of_ne (by omega)) ?_ (by omega)
    intro x hle hle'
    exact hd x (by omega) (by omega)

/-- A loop that has begun to read what it has written goes on. -/
theorem strcpyLoop_stuck (hlt : a < d) (hbytes : ∀ x, a ≤ x → x < d → m x ≠ 0) (turns : Nat) :
    strcpyLoop turns d a m = none := by
  induction turns generalizing m a d with
  | zero => rfl
  | succ turns ih =>
    have ha := hbytes a (Nat.le_refl a) hlt
    refine (Ends.load (S := fun _ => True) trivial).bind_none ?_
    refine (Ends.store (S := fun _ => True) trivial).bind_none ?_
    rw [if_neg ha]
    refine ih (Nat.succ_lt_succ hlt) ?_
    intro x hle hlt'
    by_cases hx : x = d
    · rw [hx, ByteMem.set_self]
      exact ha
    · rw [ByteMem.set_of_ne hx]
      exact hbytes x (by omega) (by omega)

/-- The copy loop ends just if its string does not reach from `src` to `dest`. -/
theorem strcpyLoop_iff (hs : m.CStringAt a u) (hs0 : NulFree u) :
    (∃ fuel r, strcpyLoop fuel d a m = some r) ↔ ¬ (a < d ∧ d ≤ a + u.length) := by
  constructor
  · rintro ⟨fuel, r, hrun⟩ ⟨hlt, hle⟩
    rw [strcpyLoop_stuck hlt ?_ fuel] at hrun
    · cases hrun
    · intro x hax hxd h0
      have hbyte := hs.1 (x - a) (by omega)
      rw [Nat.add_sub_cancel' hax, h0] at hbyte
      exact hs0 (hbyte ▸ List.getElem_mem _)
  · intro h
    obtain ⟨touched, hrun, -⟩ := strcpyLoop_ends (S := fun _ => True) (d := d)
      ⟨hs, hs0, Nat.lt_succ_self _, fun _ _ _ => trivial⟩ (fun _ _ _ => trivial) (by omega)
    exact ⟨_, _, hrun⟩

/-- `strcat` copies behind the string that is there. -/
theorem strcat_ends (ht : Scanned m S d t fuel) (hu : Scanned m S a u fuel)
    (hd : ∀ x, d + t.length ≤ x → x ≤ d + t.length + u.length → S x)
    (happart : d + t.length ≤ a ∨ a + u.length < d + t.length) :
    Ends (strcat fuel d a) m S d (OsArm.strcpy m (d + t.length) u) :=
  .bind (strlenLoop_ends ht) (.bind (strcpyLoop_ends hu hd happart) (.pure d))

theorem strcpy_ends (hu : Scanned m S a u fuel) (hd : ∀ x, d ≤ x → x ≤ d + u.length → S x)
    (happart : d ≤ a ∨ a + u.length < d) : Ends (strcpy fuel d a) m S d (OsArm.strcpy m d u) :=
  .bind (strcpyLoop_ends hu hd happart) (.pure d)

/-- What `strcat` leaves behind. -/
theorem cstringAt_strcat (ht : m.CStringAt d t) (u : Str) :
    (OsArm.strcpy m (d + t.length) u).CStringAt d (t ++ u) := by
  have hu := cstringAt_strcpy m (d + t.length) u
  refine ⟨?_, by rw [List.length_append, ← Nat.add_assoc]; exact hu.2⟩
  intro i hi
  rw [List.length_append] at hi
  by_cases hit : i < t.length
  · rw [List.getElem_append_left hit, strcpy_eq, ByteMem.blit_outside (by omega)]
    exact ht.1 i hit
  · rw [List.getElem_append_right (by omega), ← hu.1 (i - t.length) (by omega)]
    exact congrArg _ (by omega)

/-- The second loop of `strncpy`. -/
theorem padLoop_ends (hd : ∀ x, d + i ≤ x → x < d + i + left → S x) :
    Ends (padLoop d left i) m S () (m.blit (d + i) left fun _ => 0) := by
  induction left generalizing m i with
  | zero =>
    rw [ByteMem.blit_zero]
    exact .pure ()
  | succ left ih =>
    refine .bind (.store (hd _ (Nat.le_refl _) (by omega))) ?_
    rw [← ByteMem.blit_cons m (d + i) left fun _ => 0]
    refine ih (m := m.set (d + i) 0) (i := i + 1) ?_
    intro x hle hlt
    exact hd x (by omega) (by omega)

theorem length_cstring_le (m : ByteMem) (n a : Nat) : (m.cstring n a).length ≤ n := by
  induction n generalizing a with
  | zero => exact Nat.le_refl 0
  | succ n ih =>
    rw [ByteMem.cstring]
    split
    · exact Nat.zero_le _
    · exact Nat.succ_le_succ (ih (a + 1))

/-- What is read back depends on the bytes that are read. -/
theorem cstring_congr (h : ∀ x, a ≤ x → x < a + n → m' x = m x) :
    m'.cstring n a = m.cstring n a := by
  induction n generalizing a with
  | zero => rfl
  | succ n ih =>
    rw [ByteMem.cstring, ByteMem.cstring, h a (Nat.le_refl a) (by omega), ih]
    intro x hle hlt
    exact h x (by omega) (by omega)

/-- The first loop of `strncpy` copies up to the terminator, `left` bytes at most. -/
theorem strncpyLoop_ends (happart : d ≤ a ∨ a + i + left ≤ d + i)
    (hs : ∀ x, a + i ≤ x → x < a + i + left → S x) (hd : ∀ x, d + i ≤ x → x < d + i + left → S x) :
    Ends (strncpyLoop d a left i) m S (i + (m.cstring left (a + i)).length)
      (m.blit (d + i) (m.cstring left (a + i)).length fun k =>
        (m.cstring left (a + i)).getD k 0) := by
  induction left generalizing m i with
  | zero =>
    rw [ByteMem.cstring, List.length_nil, ByteMem.blit_zero]
    exact .pure i
  | succ left ih =>
    have hload : Ends (Code.load (a + i)) m S (m (a + i)) m :=
      .load (hs _ (Nat.le_refl _) (by omega))
    rw [ByteMem.cstring]
    by_cases h0 : m (a + i) = 0
    · rw [if_pos h0, List.length_nil, ByteMem.blit_zero]
      refine .bind hload ?_
      rw [if_pos h0]
      exact .pure i
    · rw [if_neg h0, List.length_cons]
      have hsame : (m.set (d + i) (m (a + i))).cstring left (a + i + 1) = m.cstring left
          (a + i + 1) := by
        refine cstring_congr fun x hle hlt => ?_
        exact ByteMem.set_of_ne (by omega)
      have hrest := ih (m := m.set (d + i) (m (a + i))) (i := i + 1) (by omega)
        (fun x hle hlt => hs x (by omega) (by omega)) (fun x hle hlt => hd x (by omega) (by omega))
      rw [← Nat.add_assoc, ← Nat.add_assoc, hsame] at hrest
      refine .bind hload ?_
      rw [if_neg h0]
      refine .bind hload (.bind (.store (hd _ (Nat.le_refl _) (by omega))) ?_)
      rw [← ByteMem.blit_cons m (d + i) _ fun k =>
        (m (a + i) :: m.cstring left (a + i + 1)).getD k 0, ← Nat.add_assoc, Nat.add_right_comm]
      exact hrest

/-- The loop of `strlen` needs a turn for each byte. -/
theorem strlenLoop_stuck (hs : m.CStringAt a u) (hs0 : NulFree u) (hturns : turns ≤ u.length) :
    strlenLoop turns a m = none := by
  induction turns generalizing a u with
  | zero => rfl
  | succ turns ih =>
    cases u with
    | nil => cases hturns
    | cons c u =>
      obtain ⟨hc, hrest⟩ := ByteMem.cstringAt_cons.1 hs
      have hne : c ≠ 0 := fun h0 => hs0 (by simp [h0])
      refine (Ends.load (S := fun _ => True) trivial).bind_none ?_
      rw [hc, if_neg hne]
      exact ih hrest (fun h0 => hs0 (List.mem_cons_of_mem c h0)) (Nat.le_of_succ_le_succ hturns)

end Loops

/-! ## The path in `full_path` -/

section Paths

variable {m₀ m : ByteMem} {S : Nat → Prop} {a full room fuel : Nat} {t u : Str}

/-- **The buffer** holds `t`, and nothing outside its `room` bytes and a terminator has changed. -/
structure Built (m₀ m : ByteMem) (full room : Nat) (t : Str) : Prop where
  str : m.CStringAt full t
  nul_free : NulFree t
  frame : ∀ x, x < full ∨ full + room < x → m x = m₀ x

/-- A string that the code takes from somewhere else. -/
structure Source (m₀ : ByteMem) (S : Nat → Prop) (full room fuel a : Nat) (u : Str) : Prop where
  scanned : Scanned m₀ S a u fuel
  apart : a + u.length < full ∨ full + room < a

theorem Source.still (h : Source m₀ S full room fuel a u)
    (hframe : ∀ x, x < full ∨ full + room < x → m x = m₀ x) : Scanned m S a u fuel :=
  h.scanned.of_frame fun i hi => hframe _ (by have := h.apart; omega)

/-- The first piece. -/
theorem Source.strcpy_ends (h : Source m₀ S full room fuel a u)
    (hS : ∀ x, full ≤ x → x ≤ full + room → S x) (hroom : u.length ≤ room) : ∃ m,
    Ends (strcpy fuel full a) m₀ S full m ∧ Built m₀ m full room u := by
  have happart := h.apart
  refine ⟨OsArm.strcpy m₀ full u,
    Mem.strcpy_ends h.scanned (fun x hle hle' => hS x hle (by omega)) (by omega),
    cstringAt_strcpy m₀ full u, h.scanned.nul_free, ?_⟩
  intro x hx
  rw [strcpy_eq, ByteMem.blit_outside (by omega)]

/-- A further piece. -/
theorem Built.strcat_ends (hb : Built m₀ m full room t) (h : Source m₀ S full room fuel a u)
    (hS : ∀ x, full ≤ x → x ≤ full + room → S x) (hroom : t.length + u.length ≤ room)
    (hfuel : t.length < fuel) :
    ∃ m', Ends (strcat fuel full a) m S full m' ∧ Built m₀ m' full room (t ++ u) := by
  have happart := h.apart
  have ht : Scanned m S full t fuel :=
    ⟨hb.str, hb.nul_free, hfuel, fun x hle hle' => hS x hle (by omega)⟩
  refine ⟨OsArm.strcpy m (full + t.length) u, Mem.strcat_ends ht (h.still hb.frame)
    (fun x hle hle' => hS x (by omega) (by omega)) (by omega), cstringAt_strcat hb.str u, ?_, ?_⟩
  · intro h0
    rcases List.mem_append.1 h0 with h0 | h0
    · exact hb.nul_free h0
    · exact h.scanned.nul_free h0
  · intro x hx
    rw [strcpy_eq, ByteMem.blit_outside (by omega), hb.frame x hx]

/-- The byte in front of the terminator, or in front of the buffer. -/
theorem Built.last (hb : Built m₀ m full room t) (hpos : 0 < full) :
    m (full + t.length - 1) = t.getLast?.getD (m₀ (full - 1)) := by
  rcases List.eq_nil_or_concat t with rfl | ⟨t', c, rfl⟩
  · exact hb.frame _ (Or.inl (by simpa using hpos))
  · have hc := hb.str.1 t'.length (by simp)
    simp only [List.concat_eq_append] at hc ⊢
    rw [List.getElem_concat_length rfl] at hc
    rw [List.getLast?_concat, List.length_append, List.length_singleton, ← Nat.add_assoc,
      Nat.add_sub_cancel]
    exact hc

end Paths

end Mem

/-- What comes of joining a relative path with the working directory, when `before` is in front of
the buffer. -/
def joinBuffered (before : UInt8) (cwd path : Str) : Str :=
  if path.head? ≠ some slash then
    (if cwd.getLast?.getD before ≠ slash then cwd ++ [slash] else cwd) ++ path
  else path

/-- It is the path of the model unless the byte in front of the buffer decides. -/
theorem joinBuffered_eq_iff {before : UInt8} {cwd path : Str} :
    joinBuffered before cwd path = joinCwd cwd path ↔
      cwd ≠ [] ∨ before ≠ slash ∨ path.head? = some slash := by
  unfold joinBuffered joinCwd
  by_cases hpath : path.head? = some slash
  · simp [hpath]
  · rw [if_pos hpath, if_pos hpath]
    rcases List.eq_nil_or_concat cwd with rfl | ⟨cwd, c, rfl⟩
    · by_cases hbefore : before = slash
      · simp [hbefore, hpath]
      · simp [hbefore]
    · simp

section Results

variable {m : ByteMem} {a d full cwd path sep fuel n : Nat} {s t p : Str}

/-- **`strcat` returns or runs on.**  With the strings `t` at `dest` and `s` at `src` it returns
just if the terminator of `t` does not lie behind the first byte of `s` and not behind its
terminator; then `t` and `s` stand one behind the other at `dest`, all bytes from the terminator
of `t` on to their new terminator excepted the memory is as it was, and only bytes of `s` and of
the new string are touched. -/
theorem strcat_ends_iff (ht : m.CStringAt d t) (ht0 : NulFree t) (hs : m.CStringAt a s)
    (hs0 : NulFree s) :
    ((∃ fuel r, Mem.strcat fuel d a m = some r) ↔
      ¬ (a < d + t.length ∧ d + t.length ≤ a + s.length)) ∧
    (¬ (a < d + t.length ∧ d + t.length ≤ a + s.length) →
      ∀ fuel, t.length < fuel → s.length < fuel →
      ∃ m', Ends (Mem.strcat fuel d a) m (Mem.InStrings a s d (t ++ s)) d m' ∧
        m'.CStringAt d (t ++ s) ∧
        ∀ x, x < d + t.length ∨ d + t.length + s.length < x → m' x = m x) := by
  have hends : ∀ {S : Nat → Prop}, (∀ x, Mem.InStrings a s d (t ++ s) x → S x) →
      ¬ (a < d + t.length ∧ d + t.length ≤ a + s.length) →
      ∀ fuel, t.length < fuel → s.length < fuel →
      Ends (Mem.strcat fuel d a) m S d (strcpy m (d + t.length) s) := by
    intro S hS hcond fuel htf hsf
    have hlen : (t ++ s).length = t.length + s.length := List.length_append
    refine Mem.strcat_ends ⟨ht, ht0, htf, fun x hle hle' => hS x (Or.inr ⟨hle, by omega⟩)⟩
      ⟨hs, hs0, hsf, fun x hle hle' => hS x (Or.inl ⟨hle, hle'⟩)⟩
      (fun x hle hle' => hS x (Or.inr ⟨by omega, by omega⟩)) (by omega)
  refine ⟨⟨?_, ?_⟩, ?_⟩
  · rintro ⟨fuel, r, hrun⟩ hbad
    have hnone : Mem.strcat fuel d a m = none := by
      by_cases hfuel : t.length < fuel
      · refine (Mem.strlenLoop_ends (S := fun _ => True)
          ⟨ht, ht0, hfuel, fun _ _ _ => trivial⟩).bind_none ?_
        have hstuck : Mem.strcpyLoop fuel (d + t.length) a m = none := by
          by_contra hsome
          obtain ⟨r', hr'⟩ := Option.ne_none_iff_exists'.1 hsome
          exact (Mem.strcpyLoop_iff hs hs0).1 ⟨fuel, r', hr'⟩ hbad
        exact Code.bind_left_none hstuck
      · exact Code.bind_left_none (Mem.strlenLoop_stuck ht ht0 (Nat.not_lt.1 hfuel))
    rw [hnone] at hrun
    cases hrun
  · intro hcond
    obtain ⟨touched, hrun, -⟩ := hends (S := fun _ => True) (fun _ _ => trivial) hcond
      (t.length + s.length + 1) (by omega) (by omega)
    exact ⟨_, _, hrun⟩
  · intro hcond fuel htf hsf
    refine ⟨_, hends (fun _ h => h) hcond fuel htf hsf, Mem.cstringAt_strcat ht s, ?_⟩
    intro x hx
    rw [strcpy_eq, ByteMem.blit_outside (by omega)]

/-- The string `b` at 200, `/` at 250, nothing at 100, and a slash in front of 300. -/
def pathMem : ByteMem :=
  (strcpy (strcpy (fun _ => 0) 200 (str ['b'])) 250 [slash]).set 299 slash

theorem pathMem_strings : pathMem.CStringAt 100 [] ∧ NulFree [] ∧
    pathMem.CStringAt 200 (str ['b']) ∧
    NulFree (str ['b']) ∧ pathMem.CStringAt 250 [slash] ∧ NulFree [slash] := by
  unfold ByteMem.CStringAt NulFree
  decide

/-- `strcat` of two strings, and of a string to itself. -/
theorem strcat_ends_iff_twice :
    (∃ m', Ends (Mem.strcat 2 200 250) pathMem
    (Mem.InStrings 250 [slash] 200 (str ['b'] ++ [slash])) 200 m' ∧
      m'.CStringAt 200 (str ['b'] ++ [slash])) ∧
    ¬ ∃ fuel r, Mem.strcat fuel 200 200 pathMem = some r := by
  obtain ⟨-, -, hb, hb0, hsep, hsep0⟩ := pathMem_strings
  constructor
  · obtain ⟨m', hends, hstr, -⟩ :=
      (strcat_ends_iff hb hb0 hsep hsep0).2 (by decide) 2 (by decide) (by decide)
    exact ⟨m', hends, hstr⟩
  · rw [(strcat_ends_iff hb hb0 hb hb0).1]
    decide

/-- **`strncpy` fills `n` bytes.**  Whatever is at the source, if `dest` does not lie inside the
`n` bytes from there on, the destination gets the bytes in front of the first zero and zeros
behind them, the rest of the memory is as it was, and a string is at the destination just if there
was a zero among the `n` bytes. -/
theorem strncpy_pads (happart : d ≤ a ∨ a + n ≤ d) :
    ∃ m', Ends (Mem.strncpy d a n) m (fun x => a ≤ x ∧ x < a + n ∨ d ≤ x ∧ x < d + n) d m' ∧
      (∀ i < n, m' (d + i) = (m.cstring n a).getD i 0) ∧ (∀ x, x < d ∨ d + n ≤ x → m' x = m x) ∧
      ((∃ s, s.length < n ∧ m'.CStringAt d s) ↔ (m.cstring n a).length < n) := by
  have hle := Mem.length_cstring_le m n a
  have hloop : Ends (Mem.strncpyLoop d a n 0) m (fun x => a ≤ x ∧ x < a + n ∨ d ≤ x ∧ x < d + n)
      (0 + (m.cstring n (a + 0)).length)
      (m.blit (d + 0) (m.cstring n (a + 0)).length fun k => (m.cstring n (a + 0)).getD k 0) :=
    Mem.strncpyLoop_ends (by omega) (fun x hx hx' => Or.inl ⟨hx, hx'⟩)
      (fun x hx hx' => Or.inr ⟨hx, hx'⟩)
  rw [Nat.add_zero, Nat.add_zero, Nat.zero_add] at hloop
  have hnul := m.zero_notMem_cstring n a
  generalize m.cstring n a = u at hle hloop hnul ⊢
  have hpad : Ends (Mem.padLoop d (n - u.length) u.length) (m.blit d u.length fun k => u.getD k 0)
      (fun x => a ≤ x ∧ x < a + n ∨ d ≤ x ∧ x < d + n) ()
      ((m.blit d u.length fun k => u.getD k 0).blit (d + u.length) (n - u.length) fun _ => 0) :=
    Mem.padLoop_ends fun x hx hx' => Or.inr ⟨by omega, by omega⟩
  have hbytes : ∀ i < n, ((m.blit d u.length fun k => u.getD k 0).blit (d + u.length) (n - u.length)
      fun _ => 0) (d + i) = u.getD i 0 := by
    intro i hi
    by_cases hiu : i < u.length
    · rw [ByteMem.blit_outside (by omega), ByteMem.blit_add hiu]
    · rw [ByteMem.blit_inside (by omega) (by omega), List.getD_eq_default _ _ (Nat.not_lt.1 hiu)]
  refine ⟨_, .bind hloop (.bind hpad (.pure d)), hbytes, ?_, ?_⟩
  · intro x hx
    rw [ByteMem.blit_outside (by omega), ByteMem.blit_outside (by omega)]
  · constructor
    · rintro ⟨s, hlt, hs⟩
      by_contra hfull
      have hzero := hs.2
      rw [hbytes _ hlt, List.getD_eq_getElem _ _ (by omega)] at hzero
      exact hnul (hzero ▸ List.getElem_mem _)
    · intro hlt
      refine ⟨u, hlt, ?_, ?_⟩
      · intro i hi
        rw [hbytes i (by omega), List.getD_eq_getElem _ _ hi]
      · rw [hbytes _ hlt, List.getD_eq_default _ _ (Nat.le_refl _)]

/-- A string that just fills its room gets no terminator. -/
theorem strncpy_pads_full : ∃ m', Ends (Mem.strncpy 300 200 1) pathMem
    (fun x => 200 ≤ x ∧ x < 200 + 1 ∨ 300 ≤ x ∧ x < 300 + 1) 300 m' ∧
    ¬ ∃ s : Str, s.length < 1 ∧ m'.CStringAt 300 s := by
  obtain ⟨m', hends, -, -, hiff⟩ :=
    strncpy_pads (m := pathMem) (d := 300) (a := 200) (n := 1) (by decide)
  refine ⟨m', hends, ?_⟩
  rw [hiff]
  decide

/-- **The path in `full_path`.**  With the strings apart from the 256 bytes of the buffer, and the
result shorter than that, the code that the entry points begin with returns, and the buffer holds
the path joined with the working directory.  It reads the byte in front of the buffer when the
working directory is empty; that byte apart it touches bytes of the three strings and of the
buffer only, and changes only the latter.  And this path is the one the model goes on with unless
the byte decides. -/
theorem fullPath_joins (hfull : 0 < full) (hs : m.CStringAt cwd s) (hs0 : NulFree s)
    (hp : m.CStringAt path p) (hp0 : NulFree p) (hsep : m.CStringAt sep [slash])
    (hapart : (cwd + s.length < full ∨ full + vfsMaxPath ≤ cwd) ∧
      (path + p.length < full ∨ full + vfsMaxPath ≤ path) ∧
        (sep + 1 < full ∨ full + vfsMaxPath ≤ sep))
    (hfits : (joinBuffered (m (full - 1)) s p).length < vfsMaxPath)
    (hfuel : s.length + 1 + p.length < fuel) :
    (∃ m', Ends (Mem.fullPath fuel full cwd path sep) m
        (fun x => Mem.InStrings cwd s path p x ∨ sep ≤ x ∧ x ≤ sep + 1 ∨
          full ≤ x + 1 ∧ x < full + vfsMaxPath) () m' ∧
      m'.CStringAt full (joinBuffered (m (full - 1)) s p) ∧
      ∀ x, x < full ∨ full + vfsMaxPath ≤ x → m' x = m x) ∧
    (joinBuffered (m (full - 1)) s p = joinCwd s p ↔
      s ≠ [] ∨ m (full - 1) ≠ slash ∨ p.head? = some slash) := by
  refine ⟨?_, joinBuffered_eq_iff⟩
  obtain ⟨hcwd, hpath, hlit⟩ := hapart
  -- all but the last byte of the buffer is room for the string
  obtain ⟨room, hroom⟩ : ∃ room, vfsMaxPath = room + 1 := ⟨255, rfl⟩
  simp only [hroom, ← Nat.add_assoc, Nat.lt_succ_iff, Nat.succ_le_iff] at hcwd hpath hlit hfits ⊢
  generalize hS : (fun x => Mem.InStrings cwd s path p x ∨ sep ≤ x ∧ x ≤ sep + 1 ∨
    full ≤ x + 1 ∧ x ≤ full + room) = S
  have hin : ∀ x, full ≤ x + 1 → x ≤ full + room → S x := by
    intro x hle hle'
    rw [← hS]
    exact Or.inr (Or.inr ⟨hle, hle'⟩)
  have hbuf : ∀ x, full ≤ x → x ≤ full + room → S x := fun x hle => hin x (by omega)
  have hcwd' : Mem.Source m S full room fuel cwd s :=
    ⟨⟨hs, hs0, by omega, fun x hle hle' => by rw [← hS]; exact Or.inl (Or.inl ⟨hle, hle'⟩)⟩, hcwd⟩
  have hpath' : Mem.Source m S full room fuel path p :=
    ⟨⟨hp, hp0, by omega, fun x hle hle' => by rw [← hS]; exact Or.inl (Or.inr ⟨hle, hle'⟩)⟩, hpath⟩
  have hlit' : Mem.Source m S full room fuel sep [slash] := by
    refine ⟨⟨hsep, by unfold NulFree; decide, ?_, fun x hle hle' => ?_⟩, hlit⟩
    · rw [List.length_singleton]
      omega
    · rw [← hS]
      exact Or.inr (Or.inl ⟨hle, hle'⟩)
  have hhead : m path = slash ↔ p.head? = some slash := by
    cases p with
    | nil =>
      rw [ByteMem.cstringAt_nil.1 hp]
      exact iff_of_false (by decide) (by simp)
    | cons c p => simp [(ByteMem.cstringAt_cons.1 hp).1]
  have hlen : (s ++ [slash]).length = s.length + 1 := by simp
  unfold joinBuffered at hfits ⊢
  by_cases habs : p.head? = some slash
  · -- an absolute path is copied
    rw [if_neg fun h => h habs] at hfits ⊢
    obtain ⟨m', hends, hbuilt⟩ := hpath'.strcpy_ends hbuf hfits
    refine ⟨m', .bind hpath'.scanned.load ?_, hbuilt.str, hbuilt.frame⟩
    rw [if_neg fun h => h (hhead.2 habs)]
    exact .bind hends (.pure ())
  · rw [if_pos habs, List.length_append] at hfits
    have hle : s.length ≤ room := by
      split at hfits <;> omega
    obtain ⟨m₁, hcopy, hbuilt⟩ := hcwd'.strcpy_ends hbuf hle
    have hlast := hbuilt.last hfull
    have hstrlen : Ends (Mem.strlen fuel full) m₁ S s.length m₁ := by
      have hends : Ends (Mem.strlenLoop fuel full) m₁ S (full + s.length) m₁ :=
        Mem.strlenLoop_ends ⟨hbuilt.str, hs0, by omega, fun x hle hle' => hbuf x hle (by omega)⟩
      have hsub : full + s.length - full = s.length := Nat.add_sub_cancel_left full s.length
      rw [← hsub]
      exact .bind hends (.pure _)
    have hbyte : Ends (Code.load (full + s.length - 1)) m₁ S (m₁ (full + s.length - 1)) m₁ :=
      .load (hin _ (by omega) (by omega))
    rw [if_pos habs]
    by_cases hslash : s.getLast?.getD (m (full - 1)) = slash
    · rw [if_neg fun h => h hslash] at hfits ⊢
      obtain ⟨m₂, happend, hbuilt₂⟩ := hbuilt.strcat_ends hpath' hbuf hfits (by omega)
      refine ⟨m₂, .bind hpath'.scanned.load ?_, hbuilt₂.str, hbuilt₂.frame⟩
      rw [if_pos fun h => habs (hhead.1 h)]
      refine .bind hcopy (.bind hstrlen (.bind hbyte ?_))
      rw [if_neg fun h => h (hlast.trans hslash)]
      exact .bind happend (.pure ())
    · rw [if_pos hslash] at hfits ⊢
      obtain ⟨m₂, hsepd, hbuilt₂⟩ :=
        hbuilt.strcat_ends hlit' hbuf (by rw [List.length_singleton]; omega) (by omega)
      obtain ⟨m₃, happend, hbuilt₃⟩ := hbuilt₂.strcat_ends hpath' hbuf (by omega) (by omega)
      refine ⟨m₃, .bind hpath'.scanned.load ?_, hbuilt₃.str, hbuilt₃.frame⟩
      rw [if_pos fun h => habs (hhead.1 h)]
      refine .bind hcopy (.bind hstrlen (.bind hbyte ?_))
      rw [if_pos fun h => hslash (hlast.symm.trans h)]
      exact .bind hsepd (.bind happend (.pure ()))

/-- With an empty working directory and a slash in front of the buffer `b` stays relative. -/
theorem fullPath_joins_before : (∃ m' S, Ends (Mem.fullPath 3 300 100 200 250) pathMem S () m' ∧
    m'.CStringAt 300 (str ['b'])) ∧
      joinBuffered (pathMem 299) [] (str ['b']) ≠ joinCwd [] (str ['b']) := by
  obtain ⟨hcwd, hcwd0, hb, hb0, hsep, -⟩ := pathMem_strings
  have hfull : 0 < 300 := by decide
  have hfuel : ([] : Str).length + 1 + (str ['b']).length < 3 := by decide
  obtain ⟨⟨m', hends, hstr, -⟩, hiff⟩ := fullPath_joins hfull hcwd hcwd0 hb hb0 hsep (by decide)
    (by decide) hfuel
  refine ⟨⟨m', _, hends, hstr⟩, fun h => ?_⟩
  exact absurd (hiff.1 h) (by decide)

end Results

end OsArm
