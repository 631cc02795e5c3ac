import OsArm.Lib.Memory

/-!
# The kernel's string routines (`string.c`)

A string held by the C code is modelled by the list of its bytes without the
terminator (`Str`); a string lying in modelled memory keeps its bytes there.

The loops of `string.c` that touch memory are the functions `memset`,
`memcpyTo`, `memcpyFrom`, `memmove` and `strcpy`, iteration by iteration; each
is shown to be one block update (`memset_eq`, `memcpyTo_eq`, `memmove_eq`,
`strcpy_eq`), and everything later uses those equations only.  `strcmp`,
`strncmp`, `strrchr` and `strtokR` are the searches; `strcmp_eq_zero_iff` and
`strncmp_eq_zero_iff` say what their zero result means.
-/

namespace OsArm

/-- A C string: its bytes, without the terminator. -/
abbrev Str := List UInt8

/-- The bytes of a literal. -/
def str (cs : List Char) : Str := cs.map fun c => UInt8.ofNat c.toNat

/-- The separator of path components. -/
def slash : UInt8 := 47

/-- No byte of the string is the terminator. -/
def NulFree (s : Str) : Prop := (0 : UInt8) ∉ s

/-! ## Copy loops -/

/-- `memset(s, c, n)`: the store of iteration `n` comes last. -/
def memset (m : ByteMem) (s : Nat) (c : UInt8) : Nat → ByteMem
  | 0 => m
  | n + 1 => (memset m s c n).set (s + n) c

/-- `memcpy(dst, buf, n)` with a source outside the modelled memory. -/
def memcpyTo (m : ByteMem) (dst : Nat) (buf : List UInt8) : Nat → ByteMem
  | 0 => m
  | n + 1 => (memcpyTo m dst buf n).set (dst + n) (buf.getD n 0)

/-- `memcpy(buf, src, n)` with a destination outside the modelled memory: the
bytes delivered. -/
def memcpyFrom (m : ByteMem) (src n : Nat) : List UInt8 := (List.range n).map fun i => m (src + i)

/-- The forward loop of `memmove`. -/
def memmoveUp (m : ByteMem) (dest src : Nat) : Nat → ByteMem
  | 0 => m
  | n + 1 => (memmoveUp m dest src n).set (dest + n) (memmoveUp m dest src n (src + n))

/-- The backward loop of `memmove` after `k` of its `n` iterations. -/
def memmoveDown (m : ByteMem) (dest src n : Nat) : Nat → ByteMem
  | 0 => m
  | k + 1 => (memmoveDown m dest src n k).set (dest + (n - 1 - k))
      (memmoveDown m dest src n k (src + (n - 1 - k)))

/-- `memmove(dest, src, n)`. -/
def memmove (m : ByteMem) (dest src n : Nat) : ByteMem :=
  if dest > src ∧ dest < src + n then memmoveDown m dest src n n else memmoveUp m dest src n

/-- `strcpy(dest, src)`: the terminator is copied last. -/
def strcpy (m : ByteMem) (dest : Nat) : Str → ByteMem
  | [] => m.set dest 0
  | c :: cs => strcpy (m.set dest c) (dest + 1) cs

theorem memset_eq (m : ByteMem) (s : Nat) (c : UInt8) (n : Nat) :
    memset m s c n = m.blit s n fun _ => c := by
  induction n with
  | zero => simp [memset]
  | succ n ih => rw [memset, ih, ByteMem.blit_succ m s n fun _ => c]

theorem memcpyTo_eq (m : ByteMem) (dst : Nat) (buf : List UInt8) (n : Nat) :
    memcpyTo m dst buf n = m.blit dst n fun i => buf.getD i 0 := by
  induction n with
  | zero => simp [memcpyTo]
  | succ n ih => rw [memcpyTo, ih, ByteMem.blit_succ m dst n fun i => buf.getD i 0]

@[simp] theorem length_memcpyFrom (m : ByteMem) (a n : Nat) : (memcpyFrom m a n).length = n := by
  simp [memcpyFrom]

theorem getElem?_memcpyFrom (m : ByteMem) (a n i : Nat) :
    (memcpyFrom m a n)[i]? = if i < n then some (m (a + i)) else none := by
  unfold memcpyFrom
  rw [List.getElem?_map]
  split
  case isTrue h => rw [List.getElem?_range h, Option.map_some]
  case isFalse h => rw [List.getElem?_eq_none (by simp; omega), Option.map_none]

/-- Reading a piece of a buffer. -/
theorem memcpyFrom_slice (m : ByteMem) (a n q c : Nat) :
    memcpyFrom m (a + q) (min c (n - q)) = ((memcpyFrom m a n).drop q).take c := by
  refine List.ext_getElem? ?_
  intro i
  rw [getElem?_memcpyFrom]
  by_cases hc : i < c
  · rw [List.getElem?_take_of_lt hc, List.getElem?_drop, getElem?_memcpyFrom, Nat.add_assoc]
    by_cases hn : q + i < n
    · rw [if_pos (by omega), if_pos hn]
    · rw [if_neg (by omega), if_neg hn]
  · rw [if_neg (by omega), List.getElem?_eq_none (by simp; omega)]

theorem memcpyFrom_eq_iff {m : ByteMem} {a : Nat} {buf : List UInt8} :
    memcpyFrom m a buf.length = buf ↔ ∀ k < buf.length, m (a + k) = buf.getD k 0 := by
  rw [List.ext_get_iff]
  simp only [length_memcpyFrom, true_and, List.get_eq_getElem]
  refine forall_congr' fun k => ⟨?_, ?_⟩
  · intro h hk
    rw [List.getD_eq_getElem _ _ hk, ← h hk hk]
    simp [memcpyFrom]
  · intro h _ hk
    rw [← List.getD_eq_getElem _ 0 hk, ← h hk]
    simp [memcpyFrom]

/-- Copying upwards is safe when the destination does not lie inside the source. -/
theorem memmoveUp_eq {m : ByteMem} {dest src n : Nat} (h : dest ≤ src ∨ src + n ≤ dest) :
    memmoveUp m dest src n = m.blit dest n fun i => m (src + i) := by
  induction n with
  | zero => simp [memmoveUp]
  | succ n ih =>
    -- the byte read in iteration `n` has not been overwritten yet
    rw [memmoveUp, ih (by omega), ByteMem.blit_outside (x := src + n) (by omega),
      ByteMem.blit_succ m dest n fun i => m (src + i)]

/-- Copying downwards is safe when the destination does not lie below the source. -/
theorem memmoveDown_eq {m : ByteMem} {dest src n k : Nat} (h : src ≤ dest) (hk : k ≤ n) :
    memmoveDown m dest src n k =
      m.blit (dest + (n - k)) k fun i => m (src + (n - k) + i) := by
  induction k with
  | zero => simp [memmoveDown]
  | succ k ih =>
    rw [memmoveDown, ih (by omega), ByteMem.blit_outside (x := src + (n - 1 - k)) (by omega)]
    funext x
    by_cases hx : x = dest + (n - 1 - k)
    · rw [hx, ByteMem.set_self, ByteMem.blit_inside (by omega) (by omega)]
      exact congrArg m (by omega)
    · rw [ByteMem.set_of_ne hx]
      by_cases hin : dest + (n - k) ≤ x ∧ x < dest + (n - k) + k
      · rw [ByteMem.blit_inside hin.1 hin.2, ByteMem.blit_inside (by omega) (by omega)]
        exact congrArg m (by omega)
      · rw [ByteMem.blit_outside (by omega), ByteMem.blit_outside (by omega)]

/-- **`memmove` copies as if through a temporary.** -/
theorem memmove_eq (m : ByteMem) (dest src n : Nat) :
    memmove m dest src n = m.blit dest n fun i => m (src + i) := by
  unfold memmove
  split
  case isTrue h =>
    rw [memmoveDown_eq (by omega) (Nat.le_refl n), Nat.sub_self]
    simp
  case isFalse h => exact memmoveUp_eq (by omega)

theorem strcpy_eq (m : ByteMem) (dest : Nat) (s : Str) :
    strcpy m dest s = m.blit dest (s.length + 1) fun i => s.getD i 0 := by
  induction s generalizing m dest with
  | nil =>
    have h := ByteMem.blit_succ m dest 0 fun i => ([] : Str).getD i 0
    simpa [strcpy] using h
  | cons c cs ih =>
    rw [strcpy, ih, List.length_cons]
    exact ByteMem.blit_cons m dest (cs.length + 1) fun i => (c :: cs).getD i 0

/-- What `strcpy` leaves behind is the string. -/
theorem cstringAt_strcpy (m : ByteMem) (dest : Nat) (s : Str) :
    (strcpy m dest s).CStringAt dest s := by
  rw [strcpy_eq]
  refine ⟨?_, ?_⟩
  · intro i hi
    rw [ByteMem.blit_add (by omega), List.getD_eq_getElem _ _ hi]
  · rw [ByteMem.blit_add (by omega), List.getD_eq_default _ _ (Nat.le_refl _)]

/-! ## Comparisons and searches -/

/-- `strcmp(s1, s2)` with `s1` in memory at `a`. -/
def strcmp (m : ByteMem) (a : Nat) : Str → Int
  | [] => (m a).toNat
  | c :: cs =>
    if m a ≠ 0 ∧ m a = c then strcmp m (a + 1) cs else (m a).toNat - (c.toNat : Int)

/-- `strcmp(s1, s2)` of two strings; the end of a list stands for the terminator. -/
def strcmpStr : Str → Str → Int
  | [], [] => 0
  | [], d :: _ => -(d.toNat : Int)
  | c :: _, [] => c.toNat
  | c :: cs, d :: ds => if c ≠ 0 ∧ c = d then strcmpStr cs ds else c.toNat - (d.toNat : Int)

/-- `strncmp(s1, s2, n)`; the end of a list stands for the terminator. -/
def strncmp : Str → Str → Nat → Int
  | _, _, 0 => 0
  | [], [], _ + 1 => 0
  | [], d :: _, _ + 1 => -(d.toNat : Int)
  | c :: _, [], _ + 1 => c.toNat
  | c :: cs, d :: ds, n + 1 =>
    if c ≠ 0 ∧ c = d then strncmp cs ds n else c.toNat - (d.toNat : Int)

/-- `strrchr(s, c)`: the part of the string from the last `c` on. -/
def strrchr (c : UInt8) : Str → Option Str
  | [] => none
  | x :: xs => match strrchr c xs with
    | some t => some t
    | none => if x = c then some (x :: xs) else none

/-- `get_basename`, which some callers of `strrchr` spell out: the part of a path
behind its last slash. -/
def basename (path : Str) : Str :=
  match strrchr slash path with
  | some lastSlash => lastSlash.drop 1
  | none => path

/-- `strtok_r`, the string still to be searched given: the next token and what
`*saveptr` then points to, or `none` when there is no token left. -/
def strtokR (s : Str) (delim : List UInt8) : Option (Str × Str) :=
  match s.dropWhile (· ∈ delim) with
  | [] => none
  | c :: cs =>
    some ((c :: cs).takeWhile (· ∉ delim), ((c :: cs).dropWhile (· ∉ delim)).drop 1)

theorem toNat_eq_zero_iff {c : UInt8} : c.toNat = 0 ↔ c = 0 :=
  ⟨fun h => UInt8.toNat_inj.1 h, fun h => by rw [h]; rfl⟩

/-- **`strcmp` answers 0 exactly for the string stored in memory.** -/
theorem strcmp_eq_zero_iff {m : ByteMem} {a : Nat} {s : Str} (hs : NulFree s) :
    strcmp m a s = 0 ↔ m.CStringAt a s := by
  induction s generalizing a with
  | nil =>
    rw [strcmp, ByteMem.cstringAt_nil]
    exact ⟨fun h => toNat_eq_zero_iff.1 (by omega), fun h => by simp [h]⟩
  | cons c cs ih =>
    have hc : c ≠ 0 := fun h => hs (by simp [h])
    have hcs : NulFree cs := fun h => hs (List.mem_cons_of_mem _ h)
    rw [strcmp, ByteMem.cstringAt_cons]
    by_cases hm : m a = c
    · rw [if_pos ⟨hm ▸ hc, hm⟩, ih hcs]
      exact ⟨fun h => ⟨hm, h⟩, fun h => h.2⟩
    · rw [if_neg fun h => hm h.2]
      refine ⟨fun h => absurd (UInt8.toNat_inj.1 ?_) hm, fun h => absurd h.1 hm⟩
      omega

/-- `strcmp` tests for equality. -/
theorem strcmpStr_eq_zero_iff {s t : Str} (hs : NulFree s) (ht : NulFree t) :
    strcmpStr s t = 0 ↔ s = t := by
  induction s generalizing t with
  | nil =>
    cases t with
    | nil => simp [strcmpStr]
    | cons d ds =>
      have hd : d ≠ 0 := fun h => ht (by simp [h])
      have hpos := mt toNat_eq_zero_iff.1 hd
      simp only [strcmpStr, List.nil_eq, reduceCtorEq, iff_false]
      omega
  | cons c cs ih =>
    have hc : c ≠ 0 := fun h => hs (by simp [h])
    cases t with
    | nil =>
      have hpos := mt toNat_eq_zero_iff.1 hc
      simp only [strcmpStr, reduceCtorEq, iff_false]
      omega
    | cons d ds =>
      rw [strcmpStr, List.cons.injEq]
      by_cases h : c = d
      · rw [if_pos ⟨hc, h⟩, ih (fun h => hs (List.mem_cons_of_mem _ h))
          (fun h => ht (List.mem_cons_of_mem _ h))]
        exact ⟨fun h' => ⟨h, h'⟩, fun h' => h'.2⟩
      · rw [if_neg fun h' => h h'.2]
        refine ⟨fun h' => absurd (UInt8.toNat_inj.1 ?_) h, fun h' => absurd h'.1 h⟩
        omega

/-- `strncmp` over the length of `p` tests for the prefix `p`. -/
theorem strncmp_eq_zero_iff {s p : Str} (hp : NulFree p) :
    strncmp s p p.length = 0 ↔ p <+: s := by
  induction p generalizing s with
  | nil => simp [strncmp]
  | cons d ds ih =>
    have hd : d ≠ 0 := fun h => hp (by simp [h])
    have hds : NulFree ds := fun h => hp (List.mem_cons_of_mem _ h)
    have hd' : d.toNat ≠ 0 := fun h => hd (toNat_eq_zero_iff.1 h)
    cases s with
    | nil =>
      rw [List.length_cons, strncmp]
      simp only [List.prefix_nil, reduceCtorEq, iff_false]
      omega
    | cons c cs =>
      rw [List.length_cons, strncmp, List.cons_prefix_cons]
      by_cases hcd : c = d
      · rw [if_pos ⟨hcd ▸ hd, hcd⟩, ih hds]
        exact ⟨fun h => ⟨hcd.symm, h⟩, fun h => h.2⟩
      · rw [if_neg fun h => hcd h.2]
        refine ⟨fun h => absurd (UInt8.toNat_inj.1 ?_) hcd, fun h => absurd h.1.symm hcd⟩
        omega

theorem strrchr_eq_none_iff {c : UInt8} {s : Str} : strrchr c s = none ↔ c ∉ s := by
  induction s with
  | nil => simp [strrchr]
  | cons x xs ih =>
    rw [strrchr]
    cases hxs : strrchr c xs with
    | none =>
      have := ih.1 hxs
      by_cases hx : x = c
      · simp [hx]
      · simp [hx, this, Ne.symm hx]
    | some t =>
      have : c ∈ xs := by
        by_contra h
        rw [ih.2 h] at hxs
        cases hxs
      simp [this]

theorem strrchr_eq_some {c : UInt8} {s t : Str} (h : strrchr c s = some t) :
    ∃ pre rest, s = pre ++ t ∧ t = c :: rest ∧ c ∉ rest := by
  induction s with
  | nil => cases h
  | cons x xs ih =>
    rw [strrchr] at h
    cases hxs : strrchr c xs with
    | none =>
      rw [hxs] at h
      by_cases hx : x = c
      · rw [if_pos hx, Option.some.injEq] at h
        exact ⟨[], xs, by simp [h], by rw [← h, hx], strrchr_eq_none_iff.1 hxs⟩
      · rw [if_neg hx] at h
        cases h
    | some t' =>
      rw [hxs, Option.some.injEq] at h
      obtain ⟨pre, rest, hcut, ht, hrest⟩ := ih (hxs.trans (congrArg some h))
      exact ⟨x :: pre, rest, by rw [hcut, List.cons_append], ht, hrest⟩

/-- The last component of a path has no slash, and the path ends in it. -/
theorem basename_spec (path : Str) :
    slash ∉ basename path ∧
      (path = basename path ∨ ∃ dir, path = dir ++ slash :: basename path) := by
  rw [basename]
  cases h : strrchr slash path with
  | none => exact ⟨strrchr_eq_none_iff.1 h, Or.inl rfl⟩
  | some t =>
    obtain ⟨pre, rest, hcut, rfl, hrest⟩ := strrchr_eq_some h
    exact ⟨hrest, Or.inr ⟨pre, hcut⟩⟩

/-- A name is its own last component. -/
theorem basename_of_notMem {s : Str} (h : slash ∉ s) : basename s = s := by
  rw [basename, strrchr_eq_none_iff.2 h]

/-- `basename` twice is `basename`. -/
theorem basename_basename (path : Str) : basename (basename path) = basename path :=
  basename_of_notMem (basename_spec path).1

/-- The last component is what stands behind the last slash. -/
theorem basename_append (s : Str) {t : Str} (h : slash ∉ t) : basename (s ++ slash :: t) = t := by
  have hstr : strrchr slash (s ++ slash :: t) = some (slash :: t) := by
    induction s with
    | nil => rw [List.nil_append, strrchr, strrchr_eq_none_iff.2 h, if_pos rfl]
    | cons c cs ih => rw [List.cons_append, strrchr, ih]
  rw [basename, hstr]
  rfl

theorem NulFree.basename {path : Str} (h : NulFree path) : NulFree (basename path) := by
  rcases (basename_spec path).2 with heq | ⟨dir, heq⟩
  · rwa [← heq]
  · rw [heq] at h
    exact fun hmem => h (List.mem_append_right _ (List.mem_cons_of_mem _ hmem))

/-! ## Path components -/

/-- What stands between the slashes of a path, empty strings included. -/
def splitSlash : Str → List Str
  | [] => [[]]
  | c :: cs =>
    match splitSlash cs with
    | [] => [[c]]
    | w :: ws => if c = slash then [] :: w :: ws else (c :: w) :: ws

/-- The components of a path, as `strtok_r` yields them one by one. -/
def tokens (path : Str) : List Str := (splitSlash path).filter (· ≠ [])

@[simp] theorem tokens_nil : tokens [] = [] := rfl

theorem splitSlash_ne_nil (s : Str) : splitSlash s ≠ [] := by
  cases s with
  | nil => simp [splitSlash]
  | cons c cs =>
    rw [splitSlash]
    cases splitSlash cs with
    | nil => simp
    | cons w ws =>
      dsimp only
      split <;> simp

theorem splitSlash_slash (s : Str) : splitSlash (slash :: s) = [] :: splitSlash s := by
  rw [splitSlash]
  cases h : splitSlash s with
  | nil => exact absurd h (splitSlash_ne_nil s)
  | cons w ws => simp

theorem splitSlash_append (s t : Str) :
    splitSlash (s ++ slash :: t) = splitSlash s ++ splitSlash t := by
  induction s with
  | nil => exact splitSlash_slash t
  | cons c cs ih =>
    rw [List.cons_append, splitSlash, splitSlash, ih]
    cases h : splitSlash cs with
    | nil => exact absurd h (splitSlash_ne_nil cs)
    | cons w ws =>
      simp only [List.cons_append]
      split <;> rfl

theorem splitSlash_of_notMem {s : Str} (h : slash ∉ s) : splitSlash s = [s] := by
  induction s with
  | nil => rfl
  | cons c cs ih =>
    have hc : c ≠ slash := fun hc => h (by rw [hc]; exact List.mem_cons_self)
    rw [splitSlash, ih fun hmem => h (List.mem_cons_of_mem _ hmem)]
    simp [hc]

/-- The components of a path behind another. -/
theorem tokens_append (s t : Str) : tokens (s ++ slash :: t) = tokens s ++ tokens t := by
  rw [tokens, splitSlash_append, List.filter_append]
  rfl

/-- A leading slash adds no component. -/
theorem tokens_slash (s : Str) : tokens (slash :: s) = tokens s := by
  rw [tokens, splitSlash_slash]
  rfl

/-- A name is its own only component. -/
theorem tokens_name {s : Str} (hne : s ≠ []) (h : slash ∉ s) : tokens s = [s] := by
  rw [tokens, splitSlash_of_notMem h]
  simp [hne]

/-- Leading slashes add no component. -/
theorem tokens_dropWhile (s : Str) : tokens (s.dropWhile (· = slash)) = tokens s := by
  induction s with
  | nil => rfl
  | cons c cs ih =>
    rw [List.dropWhile_cons]
    by_cases hc : c = slash
    · rw [if_pos (by simp [hc]), ih, hc, tokens_slash]
    · rw [if_neg (by simp [hc])]

/-- The components of a path consist of its bytes. -/
theorem mem_of_mem_tokens {path t : Str} {x : UInt8} (ht : t ∈ tokens path)
    (hx : x ∈ t) : x ∈ path := by
  have hsplit : t ∈ splitSlash path := List.mem_of_mem_filter ht
  induction path generalizing t with
  | nil =>
    rw [splitSlash, List.mem_singleton] at hsplit
    rwa [hsplit] at hx
  | cons c cs ih =>
    have hsub : ∀ w ∈ splitSlash cs, x ∈ w → x ∈ cs := by
      intro w hw hxw
      exact ih (List.mem_filter.2 ⟨hw, by simpa using List.ne_nil_of_mem hxw⟩) hxw hw
    rw [splitSlash] at hsplit
    cases hcs : splitSlash cs with
    | nil => exact absurd hcs (splitSlash_ne_nil cs)
    | cons w ws =>
      rw [hcs] at hsplit hsub
      dsimp only at hsplit
      split at hsplit
      · rcases List.mem_cons.1 hsplit with rfl | hmem
        · exact absurd hx List.not_mem_nil
        · exact List.mem_cons_of_mem _ (hsub t hmem hx)
      · rcases List.mem_cons.1 hsplit with rfl | hmem
        · rcases List.mem_cons.1 hx with rfl | hx
          · exact List.mem_cons_self
          · exact List.mem_cons_of_mem _ (hsub w List.mem_cons_self hx)
        · exact List.mem_cons_of_mem _ (hsub t (List.mem_cons_of_mem _ hmem) hx)

/-- A token is not empty, and there is no delimiter in it. -/
theorem strtokR_token {s t rest : Str} {delim : List UInt8} (h : strtokR s delim = some (t, rest)) :
    t ≠ [] ∧ ∀ c ∈ t, c ∉ delim := by
  unfold strtokR at h
  cases hs : s.dropWhile (· ∈ delim) with
  | nil =>
    rw [hs] at h
    cases h
  | cons c cs =>
    rw [hs] at h
    simp only [Option.some.injEq, Prod.mk.injEq] at h
    have hc : c ∉ delim := by
      have hhead := List.head?_dropWhile_not (fun x => decide (x ∈ delim)) s
      rw [hs] at hhead
      simpa using hhead
    rw [← h.1]
    refine ⟨?_, ?_⟩
    · rw [List.takeWhile_cons_of_pos (by simp [hc])]
      exact List.cons_ne_nil c _
    · intro x hx
      have hmem := List.mem_takeWhile_imp hx
      exact of_decide_eq_true hmem

/-- `strtok_r` ends where there is no component left. -/
theorem tokens_of_strtokR_none {s : Str} (h : strtokR s [slash] = none) : tokens s = [] := by
  have hdrop : s.dropWhile (· = slash) = [] := by
    unfold strtokR at h
    simp only [List.mem_singleton] at h
    cases hs : s.dropWhile (· = slash) with
    | nil => rfl
    | cons c cs =>
      rw [hs] at h
      cases h
  rw [← tokens_dropWhile, hdrop]
  rfl

/-- **`strtok_r`** yields the first component and leaves the others. -/
theorem tokens_of_strtokR_some {s t rest : Str} (h : strtokR s [slash] = some (t, rest)) :
    tokens s = t :: tokens rest ∧ rest.length < s.length ∧ (∀ c ∈ t, c ∈ s) ∧
      ∀ c ∈ rest, c ∈ s := by
  obtain ⟨hne, hnot⟩ := strtokR_token h
  have hslash : slash ∉ t := fun hmem => hnot slash hmem List.mem_cons_self
  unfold strtokR at h
  simp only [List.mem_singleton] at h
  cases hs : s.dropWhile (· = slash) with
  | nil =>
    rw [hs] at h
    cases h
  | cons c cs =>
    rw [hs] at h
    simp only [Option.some.injEq, Prod.mk.injEq] at h
    obtain ⟨ht, hrest⟩ := h
    have hcut : c :: cs = t ++ (c :: cs).dropWhile (· ≠ slash) := by
      rw [← ht]
      exact (List.takeWhile_append_dropWhile).symm
    have hsub : ∀ x ∈ c :: cs, x ∈ s := by
      rw [← hs]
      exact fun x hx => (List.dropWhile_sublist _).mem hx
    have hlen : (c :: cs).length ≤ s.length := by
      rw [← hs]
      exact (List.dropWhile_sublist _).length_le
    rw [← tokens_dropWhile, hs]
    cases hbehind : (c :: cs).dropWhile (· ≠ slash) with
    | nil =>
      rw [hbehind, List.append_nil] at hcut
      rw [hbehind] at hrest
      rw [← hrest]
      refine ⟨by rw [hcut]; exact tokens_name hne hslash, ?_, by rwa [← hcut], by simp⟩
      exact Nat.lt_of_lt_of_le (Nat.succ_pos _) hlen
    | cons x xs =>
      have hx : x = slash := by
        have := List.head_dropWhile_not (fun x => decide (x ≠ slash)) (l := c :: cs)
          (by rw [hbehind]; simp)
        simp only [hbehind] at this
        exact not_not.1 (of_decide_eq_false this)
      rw [hbehind] at hcut hrest
      rw [List.drop_one, List.tail_cons] at hrest
      rw [hx, hrest] at hcut
      rw [hcut] at hsub hlen ⊢
      rw [tokens_append, tokens_name hne hslash]
      simp only [List.length_append, List.length_cons] at hlen
      exact ⟨rfl, by omega, fun y hy => hsub y (List.mem_append_left _ hy),
        fun y hy => hsub y (List.mem_append_right _ (List.mem_cons_of_mem _ hy))⟩

/-- Components: there is something between the slashes. -/
def AreNames (cs : List Str) : Prop := ∀ c ∈ cs, c ≠ [] ∧ slash ∉ c

theorem slash_notMem_splitSlash {s w : Str} (h : w ∈ splitSlash s) : slash ∉ w := by
  induction s generalizing w with
  | nil =>
    rw [splitSlash, List.mem_singleton] at h
    rw [h]
    exact List.not_mem_nil
  | cons x xs ih =>
    rw [splitSlash] at h
    cases hsplit : splitSlash xs with
    | nil => exact absurd hsplit (splitSlash_ne_nil xs)
    | cons u us =>
      rw [hsplit] at h ih
      dsimp only at h
      split at h
      · rcases List.mem_cons.1 h with rfl | h
        · exact List.not_mem_nil
        · exact ih h
      · next hx =>
        rcases List.mem_cons.1 h with rfl | h
        · intro hmem
          rcases List.mem_cons.1 hmem with heq | hmem
          · exact hx heq.symm
          · exact ih List.mem_cons_self hmem
        · exact ih (List.mem_cons_of_mem u h)

/-- The components of a path are names. -/
theorem areNames_tokens (path : Str) : AreNames (tokens path) := by
  intro c hc
  obtain ⟨hmem, hne⟩ := List.mem_filter.1 hc
  exact ⟨of_decide_eq_true hne, slash_notMem_splitSlash hmem⟩

end OsArm
