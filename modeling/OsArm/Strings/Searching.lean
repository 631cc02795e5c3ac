import OsArm.Strings.Tokens

/-!
# Comparing and searching in memory (`string.c`)

`strcmp`, `strncmp`, `strrchr` and `strstr` with their loops, on strings in one memory that may
overlap or be the same.

* `Mem.strcmp`, `Mem.strncmp`, `Mem.strrchr`, `Mem.strstr` — the functions; a loop that has no count
  of its own has at most `fuel` turns.
* `strncmp_orders` — the sign that comes out is the lexicographic order of the two strings, or of
  what they begin with.
* `strstr_finds` — the first place of a string, and the last place of a byte.

None of them reads a byte outside the two strings and their terminators, or changes one.
-/

namespace OsArm

open Code (load store stuck Ends)

namespace Mem

/-! ## The functions -/

/-- The loop of `strcmp`: where `s1` and `s2` stand after it. -/
def strcmpLoop : Nat → Nat → Nat → Code (Nat × Nat)
  | 0, _, _ => stuck
  | fuel + 1, s1, s2 => do
    let x ← load s1
    if x = 0 then return (s1, s2)
    else
      let y ← load s2
      if x = y then strcmpLoop fuel (s1 + 1) (s2 + 1) else return (s1, s2)

/-- `strcmp(s1, s2)`. -/
def strcmp (fuel s1 s2 : Nat) : Code Int := do
  let p ← strcmpLoop fuel s1 s2
  let x ← load p.1
  let y ← load p.2
  return (x.toNat : Int) - y.toNat

/-- The loop of `strncmp`: what is left of `n`, and where `s1` and `s2` stand after it. -/
def strncmpLoop : Nat → Nat → Nat → Code (Nat × Nat × Nat)
  | 0, s1, s2 => return (0, s1, s2)
  | n + 1, s1, s2 => do
    let x ← load s1
    if x = 0 then return (n + 1, s1, s2)
    else
      let y ← load s2
      if x = y then strncmpLoop n (s1 + 1) (s2 + 1) else return (n + 1, s1, s2)

/-- `strncmp(s1, s2, n)`. -/
def strncmp (n s1 s2 : Nat) : Code Int := do
  let p ← strncmpLoop n s1 s2
  if p.1 = 0 then return 0
  else
    let x ← load p.2.1
    let y ← load p.2.2
    return (x.toNat : Int) - y.toNat

/-- The loop of `strrchr`: where `str` stands after it, and `last`. -/
def strrchrLoop (c : UInt8) : Nat → Nat → Option Nat → Code (Nat × Option Nat)
  | 0, _, _ => stuck
  | fuel + 1, str, last => do
    let x ← load str
    if x = 0 then return (str, last)
    else
      let y ← load str
      strrchrLoop c fuel (str + 1) (if y = c then some str else last)

/-- `strrchr(str, c)`, `c` being an `int`; `none` for `NULL`. -/
def strrchr (fuel str : Nat) (c : UInt32) : Code (Option Nat) := do
  let p ← strrchrLoop c.toUInt8 fuel str none
  if c = 0 then return some p.1 else return p.2

/-- The inner loop of `strstr`: where `n` stands after it. -/
def matchLoop : Nat → Nat → Nat → Code Nat
  | 0, _, _ => stuck
  | fuel + 1, h, n => do
    let x ← load h
    if x = 0 then return n
    else
      let y ← load n
      if y = 0 then return n
      else if x = y then matchLoop fuel (h + 1) (n + 1)
      else return n

/-- The outer loop of `strstr`. -/
def strstrLoop (fuel needle : Nat) : Nat → Nat → Code (Option Nat)
  | 0, _ => stuck
  | turns + 1, haystack => do
    let c ← load haystack
    if c = 0 then return none
    else
      let n ← matchLoop fuel haystack needle
      let y ← load n
      if y = 0 then return some haystack
      else strstrLoop fuel needle turns (haystack + 1)

/-- `strstr(haystack, needle)`; `none` for `NULL`. -/
def strstr (fuel haystack needle : Nat) : Code (Option Nat) := do
  let y ← load needle
  if y = 0 then return some haystack
  else strstrLoop fuel needle fuel haystack

/-! ## The loops -/

section Loops

variable {m : ByteMem} {S : Nat → Prop} {a b fuel turns n : Nat} {u d : Str} {c : UInt8}

/-- The loop of `strcmp` stops at the bytes whose difference decides. -/
theorem strcmpLoop_ends (hu : Scanned m S a u turns) (hd : Scanned m S b d fuel) :
    ∃ p, Ends (strcmpLoop turns a b) m S p m ∧ S p.1 ∧ S p.2 ∧
      ((m p.1).toNat : Int) - (m p.2).toNat = strcmpStr u d := by
  have ha := hu.inside a (Nat.le_refl a) (Nat.le_add_right _ _)
  have hb := hd.inside b (Nat.le_refl b) (Nat.le_add_right _ _)
  induction u generalizing a b turns d fuel with
  | nil =>
    obtain ⟨turns, rfl⟩ := hu.exists_turn
    refine ⟨(a, b), .bind hu.load ?_, ha, hb, ?_⟩
    · rw [if_pos hu.nil]
      exact .pure _
    · cases d with
      | nil => simp [hu.nil, hd.nil, strcmpStr]
      | cons y d =>
        obtain ⟨fuel, rfl⟩ := hd.exists_turn
        simp [hu.nil, hd.cons.1, strcmpStr]
  | cons x u ih =>
    obtain ⟨turns, rfl⟩ := hu.exists_turn
    obtain ⟨hx, hne, hrest⟩ := hu.cons
    cases d with
    | nil =>
      refine ⟨(a, b), .bind hu.load ?_, ha, hb, by simp [hx, hd.nil, strcmpStr]⟩
      rw [hx, if_neg hne]
      refine .bind hd.load ?_
      rw [hd.nil, if_neg hne]
      exact .pure _
    | cons y d =>
      obtain ⟨fuel, rfl⟩ := hd.exists_turn
      obtain ⟨hy, -, hrest'⟩ := hd.cons
      by_cases hxy : x = y
      · obtain ⟨p, hends, hp, hp', hval⟩ := ih hrest hrest'
          (hrest.inside _ (Nat.le_refl _) (Nat.le_add_right _ _))
          (hrest'.inside _ (Nat.le_refl _) (Nat.le_add_right _ _))
        refine ⟨p, .bind hu.load ?_, hp, hp', ?_⟩
        · rw [hx, if_neg hne]
          refine .bind hd.load ?_
          rw [hy, if_pos hxy]
          exact hends
        · rw [strcmpStr, if_pos ⟨hne, hxy⟩]
          exact hval
      · refine ⟨(a, b), .bind hu.load ?_, ha, hb, ?_⟩
        · rw [hx, if_neg hne]
          refine .bind hd.load ?_
          rw [hy, if_neg hxy]
          exact .pure _
        · rw [strcmpStr, if_neg fun h => hxy h.2]
          simp [hx, hy]

/-- `strcmp` in memory is `strcmpStr`. -/
theorem strcmp_ends (hu : Scanned m S a u turns) (hd : Scanned m S b d fuel) :
    Ends (strcmp turns a b) m S (strcmpStr u d) m := by
  obtain ⟨p, hends, hp, hp', hval⟩ := strcmpLoop_ends hu hd
  rw [← hval]
  exact .bind hends (.bind (.load hp) (.bind (.load hp') (.pure _)))

/-- `strncmp` in memory is `strncmp` of `CString`. -/
theorem strncmp_ends (hu : Scanned m S a u turns) (hd : Scanned m S b d fuel) (n : Nat) :
    Ends (strncmp n a b) m S (OsArm.strncmp u d n) m := by
  suffices hloop : ∃ p, Ends (strncmpLoop n a b) m S p m ∧ (p.1 ≠ 0 → S p.2.1 ∧ S p.2.2) ∧
      (if p.1 = 0 then 0 else ((m p.2.1).toNat : Int) - (m p.2.2).toNat) = OsArm.strncmp u d n by
    obtain ⟨p, hends, hp, hval⟩ := hloop
    refine .bind hends ?_
    rw [← hval]
    by_cases h0 : p.1 = 0
    · rw [if_pos h0, if_pos h0]
      exact .pure _
    · obtain ⟨hp, hp'⟩ := hp h0
      rw [if_neg h0, if_neg h0]
      exact .bind (.load hp) (.bind (.load hp') (.pure _))
  have ha := hu.inside a (Nat.le_refl a) (Nat.le_add_right _ _)
  have hb := hd.inside b (Nat.le_refl b) (Nat.le_add_right _ _)
  induction n generalizing a b turns u d fuel with
  | zero => exact ⟨(0, a, b), .pure _, fun h => absurd rfl h, by simp [OsArm.strncmp]⟩
  | succ n ih =>
    cases u with
    | nil =>
      refine ⟨(n + 1, a, b), .bind hu.load ?_, fun _ => ⟨ha, hb⟩, ?_⟩
      · rw [if_pos hu.nil]
        exact .pure _
      · cases d with
        | nil => simp [hu.nil, hd.nil, OsArm.strncmp]
        | cons y d =>
          obtain ⟨fuel, rfl⟩ := hd.exists_turn
          simp [hu.nil, hd.cons.1, OsArm.strncmp]
    | cons x u =>
      obtain ⟨turns, rfl⟩ := hu.exists_turn
      obtain ⟨hx, hne, hrest⟩ := hu.cons
      cases d with
      | nil =>
        refine ⟨(n + 1, a, b), .bind hu.load ?_, fun _ => ⟨ha, hb⟩, by
          simp [hx, hd.nil, OsArm.strncmp]⟩
        rw [hx, if_neg hne]
        refine .bind hd.load ?_
        rw [hd.nil, if_neg hne]
        exact .pure _
      | cons y d =>
        obtain ⟨fuel, rfl⟩ := hd.exists_turn
        obtain ⟨hy, -, hrest'⟩ := hd.cons
        by_cases hxy : x = y
        · obtain ⟨p, hends, hp, hval⟩ := ih hrest hrest'
            (hrest.inside _ (Nat.le_refl _) (Nat.le_add_right _ _))
            (hrest'.inside _ (Nat.le_refl _) (Nat.le_add_right _ _))
          refine ⟨p, .bind hu.load ?_, hp, ?_⟩
          · rw [hx, if_neg hne]
            refine .bind hd.load ?_
            rw [hy, if_pos hxy]
            exact hends
          · have hstep : OsArm.strncmp (x :: u) (y :: d) (n + 1) = OsArm.strncmp u d n :=
              if_pos ⟨hne, hxy⟩
            rw [hstep]
            exact hval
        · refine ⟨(n + 1, a, b), .bind hu.load ?_, fun _ => ⟨ha, hb⟩, ?_⟩
          · rw [hx, if_neg hne]
            refine .bind hd.load ?_
            rw [hy, if_neg hxy]
            exact .pure _
          · have hdiff : OsArm.strncmp (x :: u) (y :: d) (n + 1) = x.toNat - (y.toNat : Int) :=
              if_neg fun h => hxy h.2
            simp [hdiff, hx, hy]

/-- The loop of `strrchr` keeps the last place that it has passed. -/
theorem strrchrLoop_ends (hu : Scanned m S a u turns) (c : UInt8) (last : Option Nat) :
    Ends (strrchrLoop c turns a last) m S (a + u.length,
      ((OsArm.strrchr c u).map fun t => a + (u.length - t.length)).or last) m := by
  induction u generalizing a turns last with
  | nil =>
    obtain ⟨turns, rfl⟩ := hu.exists_turn
    refine .bind hu.load ?_
    rw [if_pos hu.nil]
    exact .pure _
  | cons x u ih =>
    obtain ⟨turns, rfl⟩ := hu.exists_turn
    obtain ⟨hx, hne, hrest⟩ := hu.cons
    refine .bind hu.load ?_
    rw [hx, if_neg hne]
    refine .bind hu.load ?_
    rw [hx]
    have hends := ih hrest (if x = c then some a else last)
    have hlen : a + 1 + u.length = a + (x :: u).length := by
      rw [List.length_cons]
      omega
    rw [hlen] at hends
    have hfound : ((OsArm.strrchr c u).map fun t => a + 1 + (u.length - t.length)).or
          (if x = c then some a else last) =
        ((OsArm.strrchr c (x :: u)).map fun t => a + ((x :: u).length - t.length)).or last := by
      rw [OsArm.strrchr]
      cases ht : OsArm.strrchr c u with
      | none => by_cases hc : x = c <;> simp [hc]
      | some t =>
        obtain ⟨pre, rest, hpre, -⟩ := strrchr_eq_some ht
        have hle := congrArg List.length hpre
        rw [List.length_append] at hle
        simp only [Option.map_some, Option.some_or, List.length_cons]
        exact congrArg some (by omega)
    rw [← hfound]
    exact hends

/-- The inner loop of `strstr` reaches the end of the needle just if the haystack begins with it. -/
theorem matchLoop_ends (hu : Scanned m S a u turns) (hd : Scanned m S b d fuel) :
    ∃ s, Ends (matchLoop turns a b) m S s m ∧ S s ∧ (m s = 0 ↔ d <+: u) := by
  have hb := hd.inside b (Nat.le_refl b) (Nat.le_add_right _ _)
  induction u generalizing a b turns d fuel with
  | nil =>
    obtain ⟨turns, rfl⟩ := hu.exists_turn
    refine ⟨b, .bind hu.load ?_, hb, ?_⟩
    · rw [if_pos hu.nil]
      exact .pure b
    · rw [List.prefix_nil]
      exact hd.str.eq_nil_iff hd.nul_free
  | cons x u ih =>
    obtain ⟨turns, rfl⟩ := hu.exists_turn
    obtain ⟨hx, hne, hrest⟩ := hu.cons
    cases d with
    | nil =>
      refine ⟨b, .bind hu.load ?_, hb, iff_of_true hd.nil List.nil_prefix⟩
      rw [hx, if_neg hne]
      refine .bind hd.load ?_
      rw [if_pos hd.nil]
      exact .pure b
    | cons y d =>
      obtain ⟨fuel, rfl⟩ := hd.exists_turn
      obtain ⟨hy, hney, hrest'⟩ := hd.cons
      by_cases hxy : x = y
      · obtain ⟨s, hends, hs, hiff⟩ := ih hrest hrest'
          (hrest'.inside _ (Nat.le_refl _) (Nat.le_add_right _ _))
        refine ⟨s, .bind hu.load ?_, hs, ?_⟩
        · rw [hx, if_neg hne]
          refine .bind hd.load ?_
          rw [hy, if_neg hney, if_pos hxy]
          exact hends
        · rw [hiff, hxy, List.prefix_cons_inj]
      · refine ⟨b, .bind hu.load ?_, hb, ?_⟩
        · rw [hx, if_neg hne]
          refine .bind hd.load ?_
          rw [hy, if_neg hney, if_neg hxy]
          exact .pure b
        · rw [hy]
          exact iff_of_false hney fun h => hxy (List.cons_prefix_cons.1 h).1.symm

end Loops

end Mem

/-! ## The order of strings -/

section Order

variable {s t : Str}

theorem strcmpStr_lt_iff (hs : NulFree s) (ht : NulFree t) : strcmpStr s t < 0 ↔ s < t := by
  induction s generalizing t with
  | nil =>
    cases t with
    | nil => simp [strcmpStr]
    | cons d t =>
      have hd : d.toNat ≠ 0 := fun h0 => ht (by simp [toNat_eq_zero_iff.1 h0])
      simp only [strcmpStr, List.nil_lt_cons, iff_true]
      omega
  | cons c s ih =>
    cases t with
    | nil => simp [strcmpStr]
    | cons d t =>
      have hc : c ≠ 0 := fun h0 => hs (by simp [h0])
      rw [strcmpStr, List.cons_lt_cons_iff, UInt8.lt_iff_toNat_lt]
      by_cases hcd : c = d
      · rw [if_pos ⟨hc, hcd⟩, ih (fun h0 => hs (List.mem_cons_of_mem c h0))
          (fun h0 => ht (List.mem_cons_of_mem d h0)), hcd]
        simp
      · rw [if_neg fun h => hcd h.2]
        have hor : c.toNat < d.toNat ∨ c = d ∧ s < t ↔ c.toNat < d.toNat :=
          or_iff_left fun h => hcd h.1
        rw [hor]
        omega

/-- `strncmp` is `strcmp` of what the strings begin with. -/
theorem strncmp_eq_take (s t : Str) (n : Nat) :
    strncmp s t n = strcmpStr (s.take n) (t.take n) := by
  induction n generalizing s t with
  | zero => simp [strncmp, strcmpStr]
  | succ n ih =>
    cases s with
    | nil => cases t <;> simp [strncmp, strcmpStr]
    | cons c s =>
      cases t with
      | nil => simp [strncmp, strcmpStr]
      | cons d t =>
        rw [strncmp, List.take_succ_cons, List.take_succ_cons, strcmpStr, ih]

theorem NulFree.take (hs : NulFree s) (n : Nat) : NulFree (s.take n) :=
  fun h0 => hs (List.mem_of_mem_take h0)

end Order

/-! ## Places in a string -/

/-- `d` is in `s` at `i`, and not further to the left. -/
def FirstAt (d s : Str) (i : Nat) : Prop :=
  i ≤ s.length ∧ d <+: s.drop i ∧ ∀ j < i, ¬ d <+: s.drop j

/-- The byte `c` is in `s` at `i`, and not further to the right. -/
def LastAt (c : UInt8) (s : Str) (i : Nat) : Prop := s[i]? = some c ∧ ∀ j, i < j → s[j]? ≠ some c

section Places

variable {m : ByteMem} {S : Nat → Prop} {a b fuel turns i : Nat} {s d u : Str} {c : UInt8}

theorem firstAt_zero (h : d <+: s) : FirstAt d s i ↔ i = 0 := by
  constructor
  · rintro ⟨-, -, hno⟩
    by_contra hi
    exact hno 0 (Nat.pos_of_ne_zero hi) h
  · rintro rfl
    exact ⟨Nat.zero_le _, h, fun j hj => absurd hj (Nat.not_lt_zero j)⟩

theorem firstAt_cons (h : ¬ d <+: c :: s) :
    FirstAt d (c :: s) i ↔ ∃ j, i = j + 1 ∧ FirstAt d s j := by
  constructor
  · rintro ⟨hle, hin, hno⟩
    cases i with
    | zero => exact absurd hin h
    | succ j => exact ⟨j, rfl, Nat.le_of_succ_le_succ hle, hin,
      fun k hk => hno (k + 1) (Nat.succ_lt_succ hk)⟩
  · rintro ⟨j, rfl, hle, hin, hno⟩
    refine ⟨Nat.succ_le_succ hle, hin, ?_⟩
    intro k hk
    cases k with
    | zero => exact h
    | succ k => exact hno k (Nat.lt_of_succ_lt_succ hk)

theorem firstAt_nil (hd : d ≠ []) : ¬ FirstAt d [] i := by
  rintro ⟨-, hin, -⟩
  rw [List.drop_nil] at hin
  exact hd (List.prefix_nil.1 hin)

/-- Something that is in a string is there for a first time. -/
theorem infix_iff_firstAt : d <:+: s ↔ ∃ i, FirstAt d s i := by
  constructor
  · intro h
    have hsome : ∃ i, i ≤ s.length ∧ d <+: s.drop i := by
      obtain ⟨l, r, rfl⟩ := h
      refine ⟨l.length, by simp, ?_⟩
      rw [List.append_assoc, List.drop_left]
      exact List.prefix_append d r
    refine ⟨Nat.find hsome, (Nat.find_spec hsome).1, (Nat.find_spec hsome).2, ?_⟩
    intro j hj hin
    exact Nat.find_min hsome hj ⟨(Nat.le_of_lt hj).trans (Nat.find_spec hsome).1, hin⟩
  · rintro ⟨i, -, hin, -⟩
    exact hin.isInfix.trans (List.drop_suffix i s).isInfix

/-- The outer loop of `strstr`, on what is left of the haystack. -/
theorem Mem.strstrLoop_ends (hu : Mem.Scanned m S a u turns) (hd : Mem.Scanned m S b d fuel)
    (hne : d ≠ []) (hfuel : u.length < fuel) : ∃ r, Ends (Mem.strstrLoop fuel b turns a) m S r m ∧
      (∀ i, r = some (a + i) ↔ FirstAt d u i) ∧ (r = none ↔ ∀ i, ¬ FirstAt d u i) := by
  induction u generalizing a turns with
  | nil =>
    obtain ⟨turns, rfl⟩ := hu.exists_turn
    refine ⟨none, .bind hu.load ?_, fun i => iff_of_false (fun h => by cases h) (firstAt_nil hne),
      iff_of_true rfl fun i => firstAt_nil hne⟩
    rw [if_pos hu.nil]
    exact .pure none
  | cons x u ih =>
    obtain ⟨turns, rfl⟩ := hu.exists_turn
    obtain ⟨hx, hx0, hrest⟩ := hu.cons
    obtain ⟨p, hends, hp, hiff⟩ := Mem.matchLoop_ends ⟨hu.str, hu.nul_free, hfuel, hu.inside⟩ hd
    by_cases hin : d <+: x :: u
    · refine ⟨some a, .bind hu.load ?_, fun i => ?_, ?_⟩
      · rw [hx, if_neg hx0]
        refine .bind hends (.bind (.load hp) ?_)
        rw [if_pos (hiff.2 hin)]
        exact .pure _
      · rw [firstAt_zero hin, Option.some.injEq]
        omega
      · exact iff_of_false (fun h => by cases h) fun h => h 0 ((firstAt_zero hin).2 rfl)
    · obtain ⟨r, hloop, hsome, hnone⟩ := ih hrest (Nat.lt_of_succ_lt hfuel)
      refine ⟨r, .bind hu.load ?_, fun i => ?_, ?_⟩
      · rw [hx, if_neg hx0]
        refine .bind hends (.bind (.load hp) ?_)
        rw [if_neg fun h => hin (hiff.1 h)]
        exact hloop
      · rw [firstAt_cons hin]
        constructor
        · intro hr
          -- a place that the loop returns later is not this one
          cases i with
          | zero =>
            have hlater : ∀ j, r ≠ some (a + 1 + j) → ¬ FirstAt d u j :=
              fun j h hj => h ((hsome j).2 hj)
            have hno : r = none := hnone.2 fun j hj => by
              have heq := (hsome j).2 hj
              rw [hr, Option.some.injEq] at heq
              omega
            rw [hno] at hr
            cases hr
          | succ j => exact ⟨j, rfl, (hsome j).1 (by rw [hr]; exact congrArg some (by omega))⟩
        · rintro ⟨j, rfl, hj⟩
          rw [(hsome j).2 hj]
          exact congrArg some (by omega)
      · rw [hnone]
        constructor
        · intro h i hi
          obtain ⟨j, -, hj⟩ := (firstAt_cons hin).1 hi
          exact h j hj
        · intro h j hj
          exact h (j + 1) ((firstAt_cons hin).2 ⟨j, rfl, hj⟩)

theorem lastAt_of_strrchr {t : Str} (h : strrchr c s = some t) : LastAt c s i ↔
    i = s.length - t.length := by
  obtain ⟨pre, rest, rfl, rfl, hrest⟩ := strrchr_eq_some h
  have hlen : (pre ++ c :: rest).length - (c :: rest).length = pre.length := by simp
  have hlast : LastAt c (pre ++ c :: rest) pre.length := by
    refine ⟨by simp, ?_⟩
    intro j hj hc
    rw [List.getElem?_append_right (Nat.le_of_lt hj),
      List.getElem?_cons, if_neg (by omega)] at hc
    exact hrest (List.mem_of_getElem? hc)
  rw [hlen]
  constructor
  · intro hi
    rcases Nat.lt_trichotomy i pre.length with hlt | heq | hgt
    · exact absurd hlast.1 (hi.2 _ hlt)
    · exact heq
    · exact absurd hi.1 (hlast.2 _ hgt)
  · rintro rfl
    exact hlast

/-- The bytes of two strings with their terminators. -/
theorem scanned_strings (hs : m.CStringAt a s) (hs0 : NulFree s) (hd : m.CStringAt b d)
    (hd0 : NulFree d) (hfuel : s.length < fuel ∧ d.length < fuel) :
    Mem.Scanned m (Mem.InStrings a s b d) a s fuel ∧
      Mem.Scanned m (Mem.InStrings a s b d) b d fuel :=
  ⟨⟨hs, hs0, hfuel.1, fun _ hle hle' => Or.inl ⟨hle, hle'⟩⟩,
    ⟨hd, hd0, hfuel.2, fun _ hle hle' => Or.inr ⟨hle, hle'⟩⟩⟩

end Places

/-! ## What the functions say -/

/-- **`strcmp` and `strncmp` order strings.**  On any two strings in memory, they may overlap,
both return, and leave the memory alone; the sign of what `strcmp` returns says how the strings
are ordered byte by byte, the sign from `strncmp` how their first `n` bytes are; and only bytes of
the two strings are read. -/
theorem strncmp_orders {m : ByteMem} {a b fuel : Nat} {s d : Str} (hs : m.CStringAt a s)
    (hs0 : NulFree s) (hd : m.CStringAt b d) (hd0 : NulFree d)
    (hfuel : s.length < fuel ∧ d.length < fuel) (n : Nat) :
    (∃ r, Ends (Mem.strcmp fuel a b) m (Mem.InStrings a s b d) r m ∧
      (r < 0 ↔ s < d) ∧ (r = 0 ↔ s = d)) ∧
    ∃ r, Ends (Mem.strncmp n a b) m (Mem.InStrings a s b d) r m ∧
      (r < 0 ↔ s.take n < d.take n) ∧ (r = 0 ↔ s.take n = d.take n) := by
  obtain ⟨hu, hv⟩ := scanned_strings hs hs0 hd hd0 hfuel
  refine ⟨⟨_, Mem.strcmp_ends hu hv, strcmpStr_lt_iff hs0 hd0, strcmpStr_eq_zero_iff hs0 hd0⟩, ?_⟩
  have hn := Mem.strncmp_ends hu hv n
  rw [strncmp_eq_take] at hn
  exact ⟨_, hn, strcmpStr_lt_iff (hs0.take n) (hd0.take n),
    strcmpStr_eq_zero_iff (hs0.take n) (hd0.take n)⟩

theorem commaList_strings : commaList.CStringAt 100 (str [',', 'a', ',', ',', 'b']) ∧
    NulFree (str [',', 'a', ',', ',', 'b']) ∧ commaList.CStringAt 200 (str [',']) ∧
      NulFree (str [',']) := by
  unfold ByteMem.CStringAt NulFree
  decide

/-- `","` comes before `",a,,b"`. -/
theorem strncmp_orders_commas : ∃ r, Ends (Mem.strcmp 6 200 100) commaList
    (Mem.InStrings 200 (str [',']) 100 (str [',', 'a', ',', ',', 'b'])) r commaList ∧ r < 0 := by
  obtain ⟨hs, hs0, hd, hd0⟩ := commaList_strings
  have hfuel : (str [',']).length < 6 ∧ (str [',', 'a', ',', ',', 'b']).length < 6 := by decide
  obtain ⟨⟨r, hends, hlt, -⟩, -⟩ := strncmp_orders hd hd0 hs hs0 hfuel 1
  exact ⟨r, hends, hlt.2 (by decide)⟩

/-- **`strstr` finds the first place** of the needle in the haystack, or there is none, and
**`strrchr` the last place** of a byte; for `0` that is the terminator, and an `int` that is not
`0` but is as a `char` is never found.  Both return, only bytes of the strings are read, and none
is changed. -/
theorem strstr_finds {m : ByteMem} {a b fuel : Nat} {s d : Str} (hs : m.CStringAt a s)
    (hs0 : NulFree s) (hd : m.CStringAt b d) (hd0 : NulFree d)
    (hfuel : s.length < fuel ∧ d.length < fuel) (c : UInt32) :
    (∃ r, Ends (Mem.strstr fuel a b) m (Mem.InStrings a s b d) r m ∧
      (∀ i, r = some (a + i) ↔ FirstAt d s i) ∧ (r = none ↔ ¬ d <:+: s)) ∧
    ∃ r, Ends (Mem.strrchr fuel a c) m (Mem.InStrings a s b d) r m ∧
      (c = 0 → r = some (a + s.length)) ∧
      (c ≠ 0 → (∀ i, r = some (a + i) ↔ LastAt c.toUInt8 s i) ∧ (r = none ↔ c.toUInt8 ∉ s)) := by
  obtain ⟨hu, hv⟩ := scanned_strings hs hs0 hd hd0 hfuel
  constructor
  · have hb := hv.inside b (Nat.le_refl b) (Nat.le_add_right _ _)
    by_cases hne : d = []
    · refine ⟨some a, .bind hv.load ?_, fun i => ?_, ?_⟩
      · rw [if_pos ((hd.eq_nil_iff hd0).2 hne)]
        exact .pure _
      · rw [hne, firstAt_zero List.nil_prefix, Option.some.injEq]
        omega
      · rw [hne]
        exact iff_of_false (fun h => by cases h) fun h => h List.nil_infix
    · obtain ⟨r, hends, hsome, hnone⟩ := Mem.strstrLoop_ends hu hv hne hfuel.1
      refine ⟨r, .bind hv.load ?_, hsome, ?_⟩
      · rw [if_neg fun h => hne ((hd.eq_nil_iff hd0).1 h)]
        exact hends
      · rw [hnone, infix_iff_firstAt, not_exists]
  · have hloop := Mem.strrchrLoop_ends hu c.toUInt8 none
    rw [Option.or_none] at hloop
    by_cases hc : c = 0
    · refine ⟨some (a + s.length), .bind hloop ?_, fun _ => rfl, fun h => absurd hc h⟩
      rw [if_pos hc]
      exact .pure _
    · refine ⟨_, .bind hloop (by rw [if_neg hc]; exact .pure _), fun h => absurd h hc, fun _ => ?_⟩
      dsimp only
      cases ht : strrchr c.toUInt8 s with
      | none =>
        have hno := strrchr_eq_none_iff.1 ht
        refine ⟨fun i => iff_of_false (fun h => by cases h) ?_, iff_of_true rfl hno⟩
        intro hlast
        exact hno (List.mem_of_getElem? hlast.1)
      | some t =>
        refine ⟨fun i => ?_, iff_of_false (fun h => by cases h) ?_⟩
        · rw [lastAt_of_strrchr ht, Option.map_some, Option.some.injEq]
          omega
        · intro hno
          rw [strrchr_eq_none_iff.2 hno] at ht
          cases ht

/-- `","` is first at the front of `",a,,b"`, and last at its fourth byte. -/
theorem strstr_finds_commas :
    (∃ r, Ends (Mem.strstr 6 100 200) commaList
      (Mem.InStrings 100 (str [',', 'a', ',', ',', 'b']) 200 (str [','])) r
        commaList ∧ r = some 100) ∧
    ∃ r, Ends (Mem.strrchr 6 100 44) commaList
      (Mem.InStrings 100 (str [',', 'a', ',', ',', 'b']) 200 (str [','])) r commaList ∧
        r = some 103 := by
  obtain ⟨hs, hs0, hd, hd0⟩ := commaList_strings
  have hfuel : (str [',', 'a', ',', ',', 'b']).length < 6 ∧ (str [',']).length < 6 := by decide
  obtain ⟨⟨r, hends, hfirst, -⟩, r', hends', -, hlast⟩ := strstr_finds hs hs0 hd hd0 hfuel 44
  have hzero : FirstAt (str [',']) (str [',', 'a', ',', ',', 'b']) 0 :=
    (firstAt_zero (by decide)).2 rfl
  have hthree : LastAt (44 : UInt32).toUInt8 (str [',', 'a', ',', ',', 'b']) 3 :=
    (lastAt_of_strrchr (t := str [',', 'b']) (by decide)).2 (by decide)
  exact ⟨⟨r, hends, (hfirst 0).2 hzero⟩, r', hends', ((hlast (by decide)).1 3).2 hthree⟩

end OsArm
