import OsArm.CString
import OsArm.Lib.Code
import OsArm.Lib.Fields

/-!
# `strtok_r` in memory (`string.c`)

`strtok_r` cuts a string up in place: it overwrites the delimiter behind each token, and the caller
holds the address where the next call goes on.  Both strings lie in one memory.

* `Mem.strspn`, `Mem.strpbrk`, `Mem.strlen`, `Mem.strtokR` — the functions with their loops, each
  of at most `fuel` turns; `Mem.strtokCalls` — a first call and then calls with `NULL`.
* `Scanned` — a string that a loop goes over; `strspnLoop_ends`, `strpbrkLoop_ends`,
  `strlenLoop_ends`, `strtokR_ends` — what each returns, and that it stays inside the two strings.
* `strtokR_strtokR` — on the strings that memory holds this is `strtokR` of `CString`.
* `strtok_enumerates` — the calls return all fields of the string, in order, and then `NULL`; and
  what they have returned stays as it is.
-/

namespace OsArm

open Code (load store stuck Ends)

namespace Mem

/-! ## The functions -/

/-- The inner loop of `strspn`: where `s` stands after it. -/
def spanLoop (c : UInt8) : Nat → Nat → Code Nat
  | 0, _ => stuck
  | fuel + 1, s => do
    let x ← load s
    if x = 0 then return s
    else if c = x then return s
    else spanLoop c fuel (s + 1)

/-- The outer loop of `strspn`. -/
def strspnLoop (fuel accept : Nat) : Nat → Nat → Nat → Code Nat
  | 0, _, _ => stuck
  | turns + 1, str, count => do
    let c ← load str
    if c = 0 then return count
    else
      let s ← spanLoop c fuel accept
      let x ← load s
      if x = 0 then return count
      else strspnLoop fuel accept turns (str + 1) (count + 1)

/-- `strspn(str, accept)`. -/
def strspn (fuel str accept : Nat) : Code Nat := strspnLoop fuel accept fuel str 0

/-- The inner loop of `strpbrk`: whether it returns. -/
def breakLoop (c : UInt8) : Nat → Nat → Code Bool
  | 0, _ => stuck
  | fuel + 1, a => do
    let x ← load a
    if x = 0 then return false
    else if c = x then return true
    else breakLoop c fuel (a + 1)

/-- The outer loop of `strpbrk`. -/
def strpbrkLoop (fuel accept : Nat) : Nat → Nat → Code (Option Nat)
  | 0, _ => stuck
  | turns + 1, str => do
    let c ← load str
    if c = 0 then return none
    else
      let found ← breakLoop c fuel accept
      if found then return some str
      else strpbrkLoop fuel accept turns (str + 1)

/-- `strpbrk(str, accept)`; `none` for `NULL`. -/
def strpbrk (fuel str accept : Nat) : Code (Option Nat) := strpbrkLoop fuel accept fuel str

/-- The loop of `strlen`: where `p` stands after it. -/
def strlenLoop : Nat → Nat → Code Nat
  | 0, _ => stuck
  | fuel + 1, p => do
    let x ← load p
    if x = 0 then return p
    else strlenLoop fuel (p + 1)

/-- `strlen(s)`. -/
def strlen (fuel s : Nat) : Code Nat := do
  let p ← strlenLoop fuel s
  return p - s

/-- `strtok_r(str, delim, saveptr)`: the token, and `*saveptr` after the call; `none` stands for
`NULL`. -/
def strtokR (fuel : Nat) (str : Option Nat) (delim save : Nat) : Code (Option Nat × Nat) := do
  let str := str.getD save
  let skipped ← strspn fuel str delim
  let str := str + skipped
  let c ← load str
  if c = 0 then return (none, str)
  else
    let token := str
    let found ← strpbrk fuel str delim
    match found with
    | none =>
      let len ← strlen fuel token
      return (some token, token + len)
    | some str =>
      store str 0
      return (some token, str + 1)

/-- The calls one after the other: `strtok_r(s, delim, &save)`, and then `strtok_r(NULL, delim,
&save)` again and again.  What the last of them returns, with the memory after it and the bytes it
has touched. -/
def strtokCalls (fuel s delim save : Nat) (m : ByteMem) :
    Nat → Option ((Option Nat × Nat) × ByteMem × List Nat)
  | 0 => strtokR fuel (some s) delim save m
  | k + 1 =>
    match strtokCalls fuel s delim save m k with
    | none => none
    | some ((_, save), m, _) => strtokR fuel none delim save m

/-! ## The loops -/

/-- **A string that a loop goes over**: the loop may read all of it with its terminator, and has
more turns than there are bytes. -/
structure Scanned (m : ByteMem) (S : Nat → Prop) (a : Nat) (u : Str) (turns : Nat) : Prop where
  str : m.CStringAt a u
  nul_free : NulFree u
  turns_gt : u.length < turns
  inside : ∀ x, a ≤ x → x ≤ a + u.length → S x

section Loops

variable {m : ByteMem} {S : Nat → Prop} {a b fuel turns : Nat} {u d : Str} {c : UInt8}

theorem Scanned.exists_turn (h : Scanned m S a u turns) : ∃ left, turns = left + 1 :=
  Nat.exists_eq_add_one_of_ne_zero (Nat.ne_zero_of_lt h.turns_gt)

/-- The byte that a turn reads. -/
theorem Scanned.load (h : Scanned m S a u turns) : Ends (Code.load a) m S (m a) m :=
  .load (h.inside a (Nat.le_refl a) (Nat.le_add_right _ _))

/-- At the end there is the terminator. -/
theorem Scanned.nil (h : Scanned m S a [] turns) : m a = 0 := ByteMem.cstringAt_nil.1 h.str

/-- Before it there is a byte of the string, and the rest is for the turns that are left. -/
theorem Scanned.cons (h : Scanned m S a (c :: u) (turns + 1)) :
    m a = c ∧ c ≠ 0 ∧ Scanned m S (a + 1) u turns := by
  obtain ⟨hc, hrest⟩ := ByteMem.cstringAt_cons.1 h.str
  have hturns := h.turns_gt
  have hinside := h.inside
  rw [List.length_cons] at hturns hinside
  refine ⟨hc, fun h0 => h.nul_free (by simp [h0]), hrest, fun h0 => ?_, by omega, ?_⟩
  · exact h.nul_free (List.mem_cons_of_mem c h0)
  · intro x hle hle'
    exact hinside x (by omega) (by omega)

/-- The inner loop of `strspn` stops at the terminator just if no delimiter is the byte. -/
theorem spanLoop_ends (hd : Scanned m S b d fuel) (c : UInt8) :
    ∃ s, Ends (spanLoop c fuel b) m S s m ∧ S s ∧ (m s = 0 ↔ c ∉ d) := by
  induction d generalizing b fuel with
  | nil =>
    obtain ⟨fuel, rfl⟩ := hd.exists_turn
    have hb := hd.inside b (Nat.le_refl b) (Nat.le_add_right _ _)
    refine ⟨b, .bind hd.load ?_, hb, by simp [hd.nil]⟩
    rw [if_pos hd.nil]
    exact .pure b
  | cons x d ih =>
    obtain ⟨fuel, rfl⟩ := hd.exists_turn
    obtain ⟨hx, hne, hrest⟩ := hd.cons
    have hb := hd.inside b (Nat.le_refl b) (Nat.le_add_right _ _)
    by_cases hc : c = x
    · refine ⟨b, .bind hd.load ?_, hb, by simp [hx, hne, hc]⟩
      rw [hx, if_neg hne, if_pos hc]
      exact .pure b
    · obtain ⟨s, hs, hSs, hiff⟩ := ih hrest
      refine ⟨s, .bind hd.load ?_, hSs, by simp [hiff, hc]⟩
      rw [hx, if_neg hne, if_neg hc]
      exact hs

/-- `strspn` counts the delimiters in front. -/
theorem strspnLoop_ends {count : Nat} (hu : Scanned m S a u turns) (hd : Scanned m S b d fuel) :
    Ends (strspnLoop fuel b turns a count) m S
      (count + (u.takeWhile fun x => decide (x ∈ d)).length) m := by
  induction u generalizing a turns count with
  | nil =>
    obtain ⟨turns, rfl⟩ := hu.exists_turn
    refine .bind hu.load ?_
    rw [if_pos hu.nil]
    exact .pure count
  | cons c u ih =>
    obtain ⟨turns, rfl⟩ := hu.exists_turn
    obtain ⟨hc, hne, hrest⟩ := hu.cons
    obtain ⟨s, hs, hSs, hiff⟩ := spanLoop_ends hd c
    refine .bind hu.load ?_
    rw [hc, if_neg hne]
    refine .bind hs (.bind (.load hSs) ?_)
    by_cases hmem : c ∈ d
    · rw [if_neg (fun h => hiff.1 h hmem), List.takeWhile_cons_of_pos (by simpa using hmem),
        List.length_cons, ← Nat.add_assoc, Nat.add_right_comm]
      exact ih hrest
    · rw [if_pos (hiff.2 hmem), List.takeWhile_cons_of_neg (by simpa using hmem)]
      exact .pure count

/-- The inner loop of `strpbrk` returns just if the byte is a delimiter. -/
theorem breakLoop_ends (hd : Scanned m S b d fuel) (c : UInt8) :
    Ends (breakLoop c fuel b) m S (decide (c ∈ d)) m := by
  induction d generalizing b fuel with
  | nil =>
    obtain ⟨fuel, rfl⟩ := hd.exists_turn
    refine .bind hd.load ?_
    rw [if_pos hd.nil]
    exact .pure false
  | cons x d ih =>
    obtain ⟨fuel, rfl⟩ := hd.exists_turn
    obtain ⟨hx, hne, hrest⟩ := hd.cons
    refine .bind hd.load ?_
    rw [hx, if_neg hne]
    by_cases hc : c = x
    · rw [if_pos hc, decide_eq_true (by simp [hc])]
      exact .pure true
    · have hiff : decide (c ∈ x :: d) = decide (c ∈ d) := by simp [hc]
      rw [if_neg hc, hiff]
      exact ih hrest

/-- `strpbrk` finds the first delimiter. -/
theorem strpbrkLoop_ends (hu : Scanned m S a u turns) (hd : Scanned m S b d fuel) :
    Ends (strpbrkLoop fuel b turns a) m S
      (if (u.takeWhile fun x => decide (x ∉ d)).length < u.length then
        some (a + (u.takeWhile fun x => decide (x ∉ d)).length) else none) m := by
  induction u generalizing a turns with
  | nil =>
    obtain ⟨turns, rfl⟩ := hu.exists_turn
    refine .bind hu.load ?_
    rw [if_pos hu.nil]
    exact .pure none
  | cons c u ih =>
    obtain ⟨turns, rfl⟩ := hu.exists_turn
    obtain ⟨hc, hne, hrest⟩ := hu.cons
    refine .bind hu.load ?_
    rw [hc, if_neg hne]
    refine .bind (breakLoop_ends hd c) ?_
    by_cases hmem : c ∈ d
    · rw [if_pos (decide_eq_true hmem), List.takeWhile_cons_of_neg (by simpa using hmem)]
      exact .pure (some a)
    · rw [if_neg (by simpa using hmem), List.takeWhile_cons_of_pos (by simpa using hmem),
        List.length_cons, List.length_cons]
      have hnext := ih hrest
      generalize (u.takeWhile fun x => decide (x ∉ d)).length = t at hnext ⊢
      rw [show a + (t + 1) = a + 1 + t by omega]
      simpa only [Nat.add_lt_add_iff_right] using hnext

/-- `strlen` finds the terminator. -/
theorem strlenLoop_ends (hu : Scanned m S a u turns) :
    Ends (strlenLoop turns a) m S (a + u.length) m := by
  induction u generalizing a turns with
  | nil =>
    obtain ⟨turns, rfl⟩ := hu.exists_turn
    refine .bind hu.load ?_
    rw [if_pos hu.nil]
    exact .pure a
  | cons c u ih =>
    obtain ⟨turns, rfl⟩ := hu.exists_turn
    obtain ⟨hc, hne, hrest⟩ := hu.cons
    refine .bind hu.load ?_
    rw [hc, if_neg hne, List.length_cons, ← Nat.add_assoc, Nat.add_right_comm]
    exact ih hrest

end Loops

/-! ## One call -/

/-- **Two strings in memory**, apart from each other, and turns enough for both. -/
structure TwoStrings (m : ByteMem) (a : Nat) (s : Str) (b : Nat) (d : Str) (fuel : Nat) : Prop where
  str : m.CStringAt a s
  str_nul : NulFree s
  delim : m.CStringAt b d
  delim_nul : NulFree d
  apart : a + s.length < b ∨ b + d.length < a
  fuel_gt : s.length < fuel ∧ d.length < fuel

/-- The bytes of the two strings and their terminators. -/
def InStrings (a : Nat) (s : Str) (b : Nat) (d : Str) (x : Nat) : Prop :=
  a ≤ x ∧ x ≤ a + s.length ∨ b ≤ x ∧ x ≤ b + d.length

section Call

variable {m m' : ByteMem} {a b fuel q save : Nat} {s d : Str} {str : Option Nat}

/-- The string from `k` on is still there. -/
theorem TwoStrings.rest {k : Nat} (h : TwoStrings m a s b d fuel)
    (hframe : ∀ x, x < a ∨ a + q ≤ x → m' x = m x) (hqk : q ≤ k) (hk : k ≤ s.length) :
    m'.CStringAt (a + k) (s.drop k) :=
  (h.str.drop hk).move fun i _ => hframe _ (Or.inr (by omega))

/-- A call that goes on at `q`: the bytes from there on are those of the string. -/
theorem strtokR_ends (h : TwoStrings m a s b d fuel) (hq : q ≤ s.length)
    (hframe : ∀ x, x < a ∨ a + q ≤ x → m' x = m x) (hstr : str.getD save = a + q) :
    Ends (strtokR fuel str b save) m' (InStrings a s b d)
      ((nextField (· ∉ d) s q).1.map (fun f => a + f.1), a + (nextField (· ∉ d) s q).2)
      (match (nextField (· ∉ d) s q).1 with
        | some (i, n) => if i + n < s.length then m'.set (a + i + n) 0 else m'
        | none => m') := by
  -- the strings as the call finds them
  have hscan : ∀ k, q ≤ k → k ≤ s.length → Scanned m' (InStrings a s b d) (a + k)
      (s.drop k) fuel := by
    intro k hqk hk
    have hlen : (s.drop k).length = s.length - k := List.length_drop
    have hturns := h.fuel_gt.1
    refine ⟨h.rest hframe hqk hk, fun h0 => h.str_nul (List.mem_of_mem_drop h0), by omega, ?_⟩
    intro x hle hle'
    exact Or.inl ⟨by omega, by omega⟩
  have hdelim : Scanned m' (InStrings a s b d) b d fuel := by
    have happart := h.apart
    exact ⟨h.delim.move fun i hi => hframe _ (by omega), h.delim_nul, h.fuel_gt.2,
      fun x hle hle' => Or.inr ⟨hle, hle'⟩⟩
  have hle := (stretch_spec (p := fun x => ¬ x ∉ d) hq).1
  have hskip : ((s.drop q).takeWhile fun x => decide (x ∈ d)).length =
      stretch (fun x => ¬ x ∉ d) s q := by
    simp only [stretch, not_not]
  unfold strtokR nextField strspn
  rw [hstr]
  refine .bind (strspnLoop_ends (hscan q (Nat.le_refl q) hq) hdelim) ?_
  rw [hskip, Nat.zero_add, Nat.add_assoc]
  generalize stretch (fun x => ¬ x ∉ d) s q = t at hle
  have hv := hscan (q + t) (Nat.le_add_right q t) hle
  refine .bind hv.load ?_
  have hend := hv.str.eq_nil_iff hv.nul_free
  rw [List.drop_eq_nil_iff] at hend
  by_cases hlt : q + t < s.length
  · rw [if_neg (mt hend.1 (by omega))]
    dsimp only
    rw [if_pos hlt]
    refine .bind (strpbrkLoop_ends hv hdelim) ?_
    have hrun : ((s.drop (q + t)).takeWhile fun x => decide (x ∉ d)).length =
        stretch (· ∉ d) s (q + t) := rfl
    rw [hrun, List.length_drop]
    have hle' := (stretch_spec (p := (· ∉ d)) hle).1
    generalize stretch (· ∉ d) s (q + t) = n at hle'
    dsimp only [Option.map_some]
    by_cases hn : q + t + n < s.length
    · -- the delimiter behind the token is overwritten
      rw [if_pos (by omega), if_pos hn,
        show a + min (q + t + n + 1) s.length = a + (q + t) + n + 1 by omega]
      exact .bind (.store (Or.inl ⟨by omega, by omega⟩)) (.pure _)
    · rw [if_neg (by omega), if_neg hn, Nat.min_eq_right (by omega)]
      have hstrlen : Ends (strlen fuel (a + (q + t))) m' (InStrings a s b d) n m' := by
        refine .bind (strlenLoop_ends hv) ?_
        rw [List.length_drop, show a + (q + t) + (s.length - (q + t)) - (a + (q + t)) = n by omega]
        exact .pure n
      refine .bind hstrlen ?_
      rw [show a + s.length = a + (q + t) + n by omega]
      exact .pure _
  · rw [if_pos (hend.2 (by omega))]
    dsimp only
    rw [if_neg hlt]
    dsimp only [Option.map_none]
    rw [show a + s.length = a + (q + t) by omega]
    exact .pure _

/-- **On the strings that memory holds** this is the `strtokR` of `CString`: the token is cut off,
and what is still to be searched is the string at `*saveptr`. -/
theorem strtokR_strtokR (h : TwoStrings m a s b d fuel) (hstr : str.getD save = a) :
    match OsArm.strtokR s d with
    | none => ∃ save', Ends (strtokR fuel str b save) m (InStrings a s b d) (none, save') m ∧
        m.CStringAt save' []
    | some (token, rest) => ∃ p save' m', Ends (strtokR fuel str b save) m (InStrings a s b d)
        (some p, save') m' ∧ m'.CStringAt p token ∧ m'.CStringAt save' rest := by
  have hcall := strtokR_ends (q := 0) h (Nat.zero_le _) (fun _ _ => rfl) hstr
  have hdrop := drop_stretch (fun x => ¬ x ∉ d) s 0
  have hle := (stretch_spec (p := fun x => ¬ x ∉ d) (Nat.zero_le s.length)).1
  unfold nextField at hcall
  rw [Nat.zero_add] at hle hcall hdrop
  rw [List.drop_zero] at hdrop
  have hskip : s.dropWhile (fun x => decide (x ∈ d)) = s.dropWhile fun x => decide (¬ x ∉ d) := by
    simp only [not_not]
  unfold OsArm.strtokR
  rw [hskip, ← hdrop]
  generalize stretch (fun x => ¬ x ∉ d) s 0 = t at hcall hle
  have hstring := h.str.drop hle
  by_cases hlt : t < s.length
  · have hle' := (stretch_spec (p := (· ∉ d)) hle).1
    have htoken := take_stretch (· ∉ d) s t
    have hrest := drop_stretch (· ∉ d) s t
    obtain ⟨c, cs, hcs⟩ := List.exists_cons_of_length_pos (l := s.drop t)
      (by rw [List.length_drop]; omega)
    dsimp only at hcall
    rw [if_pos hlt] at hcall
    rw [hcs] at htoken hrest ⊢
    dsimp only
    rw [← htoken, ← hrest, ← hcs, List.drop_drop]
    generalize stretch (· ∉ d) s t = n at hle' hcall
    dsimp only [Option.map_some] at hcall
    refine ⟨_, _, _, hcall, ?_⟩
    by_cases hn : t + n < s.length
    · rw [if_pos hn, Nat.min_eq_left hn]
      refine ⟨hstring.cut (by rw [List.length_drop]; omega), (h.str.drop hn).move fun i _ => ?_⟩
      exact ByteMem.set_of_ne (by omega)
    · rw [if_neg hn, Nat.min_eq_right (by omega),
        List.take_of_length_le (by rw [List.length_drop]; omega),
        List.drop_of_length_le (show s.length ≤ t + n + 1 by omega)]
      exact ⟨hstring, ByteMem.cstringAt_nil.2 h.str.2⟩
  · dsimp only at hcall
    rw [if_neg hlt] at hcall
    rw [List.drop_of_length_le (by omega)]
    exact ⟨_, hcall, ByteMem.cstringAt_nil.2 h.str.2⟩

/-! ## All calls -/

/-- **After `k` calls** the next one goes on at `q`: the memory is as it was from there on, the
fields that are left are those from `q` on, and the tokens so far are strings in front of it. -/
structure Cut (m : ByteMem) (a : Nat) (s d : Str) (k q : Nat) (m' : ByteMem) : Prop where
  le : q ≤ s.length
  frame : ∀ x, x < a ∨ a + q ≤ x → m' x = m x
  rest : ∀ j, nthField (· ∉ d) s 0 (k + j) = nthField (· ∉ d) s q j
  tokens : ∀ j < k, ∀ i n, nthField (· ∉ d) s 0 j = some (i, n) →
    m'.CStringAt (a + i) ((s.drop i).take n) ∧ (i + n < q ∨ q = s.length)

/-- **One more call.** -/
theorem Cut.next {k : Nat} (hc : Cut m a s d k q m') (h : TwoStrings m a s b d fuel)
    (hstr : str.getD save = a + q) :
    ∃ q' m'', Ends (strtokR fuel str b save) m' (InStrings a s b d)
      ((nthField (· ∉ d) s 0 k).map fun f => a + f.1, a + q') m'' ∧ Cut m a s d (k + 1) q' m'' := by
  have hcall := strtokR_ends h hc.le hc.frame hstr
  have hnth : nthField (· ∉ d) s 0 k = (nextField (· ∉ d) s q).1 := hc.rest 0
  have hrest : ∀ j, nthField (· ∉ d) s 0 (k + 1 + j) =
      nthField (· ∉ d) s (nextField (· ∉ d) s q).2 j := by
    intro j
    rw [Nat.add_assoc, Nat.add_comm 1 j, hc.rest]
    rfl
  have hbounds := nextField_bounds (p := (· ∉ d)) hc.le
  rw [hnth]
  refine ⟨_, _, hcall, ?_⟩
  rcases hnext : nextField (· ∉ d) s q with ⟨_ | ⟨i, n⟩, q'⟩
  · rw [hnext] at hnth hbounds hrest
    have hq' : q' = s.length := hbounds
    refine ⟨Nat.le_of_eq hq', ?_, hrest, ?_⟩
    · intro x hx
      have hle := hc.le
      exact hc.frame x (by dsimp only at hx; omega)
    · intro j hj i n hfield
      rcases Nat.lt_succ_iff_lt_or_eq.1 hj with hlt | rfl
      · exact ⟨(hc.tokens j hlt i n hfield).1, Or.inr hq'⟩
      · rw [hnth] at hfield
        cases hfield
  · rw [hnext] at hnth hbounds hrest
    obtain ⟨hqi, hend, hq'⟩ := hbounds
    dsimp only at hq' hrest ⊢
    by_cases hn : i + n < s.length
    · -- the delimiter is overwritten: behind all tokens so far, and in front of the rest
      rw [if_pos hn]
      refine ⟨by omega, ?_, hrest, ?_⟩
      · intro x hx
        rw [ByteMem.set_of_ne (by omega)]
        exact hc.frame x (by omega)
      · intro j hj i' n' hfield
        rcases Nat.lt_succ_iff_lt_or_eq.1 hj with hlt | rfl
        · obtain ⟨hstring, hplace⟩ := hc.tokens j hlt i' n' hfield
          refine ⟨hstring.move fun k hk => ?_, Or.inl (by omega)⟩
          have hlen : ((s.drop i').take n').length ≤ n' := List.length_take_le _ _
          exact ByteMem.set_of_ne (by omega)
        · rw [hnth, Option.some.injEq, Prod.mk.injEq] at hfield
          obtain ⟨rfl, rfl⟩ := hfield
          have hrest := h.rest hc.frame hqi (show i ≤ s.length by omega)
          exact ⟨hrest.cut (by rw [List.length_drop]; omega), Or.inl (by omega)⟩
    · rw [if_neg hn]
      have hlast : q' = s.length := by omega
      refine ⟨by omega, ?_, hrest, ?_⟩
      · intro x hx
        exact hc.frame x (by omega)
      · intro j hj i' n' hfield
        rcases Nat.lt_succ_iff_lt_or_eq.1 hj with hlt | rfl
        · exact ⟨(hc.tokens j hlt i' n' hfield).1, Or.inr hlast⟩
        · rw [hnth, Option.some.injEq, Prod.mk.injEq] at hfield
          obtain ⟨rfl, rfl⟩ := hfield
          rw [List.take_of_length_le (by rw [List.length_drop]; omega)]
          exact ⟨h.rest hc.frame hqi (by omega), Or.inr hlast⟩

end Call

/-- The calls, up to any of them. -/
theorem strtokCalls_cut {m : ByteMem} {a b fuel : Nat} {s d : Str} (h : TwoStrings m a s b d fuel)
    (save k : Nat) : ∃ q m' touched,
      strtokCalls fuel a b save m k =
        some (((nthField (· ∉ d) s 0 k).map fun f => a + f.1, a + q), m', touched) ∧
      (∀ x ∈ touched, InStrings a s b d x) ∧ Cut m a s d (k + 1) q m' := by
  induction k with
  | zero =>
    have hstart : Cut m a s d 0 0 m :=
      ⟨Nat.zero_le _, fun _ _ => rfl, fun j => by
        rw [Nat.zero_add], fun j hj => absurd hj (Nat.not_lt_zero j)⟩
    have hstr : (some a).getD save = a + 0 := rfl
    obtain ⟨q, m', ⟨touched, hrun, hin⟩, hcut⟩ := hstart.next h hstr
    exact ⟨q, m', touched, hrun, hin, hcut⟩
  | succ k ih =>
    obtain ⟨q, m', touched, hrun, -, hcut⟩ := ih
    have hstr : (none : Option Nat).getD (a + q) = a + q := rfl
    obtain ⟨q', m'', ⟨touched', hrun', hin'⟩, hcut'⟩ := hcut.next h hstr
    refine ⟨q', m'', touched', ?_, hin', hcut'⟩
    rw [strtokCalls, hrun]
    exact hrun'

end Mem

/-- **`strtok_r` enumerates the fields of a string.**  For any two strings in memory there is the
list of all fields of the first, from left to right, such that call number `k` returns the `k`-th
of them, and `NULL` when there is none.  Each call touches bytes of the two strings only, and leaves
all bytes outside the first one alone; and after it, all tokens returned so far are the fields, each
with its terminator. -/
theorem strtok_enumerates {m : ByteMem} {a b : Nat} {s d : Str} (hs : m.CStringAt a s)
    (hs0 : NulFree s) (hd : m.CStringAt b d) (hd0 : NulFree d)
    (happart : a + s.length < b ∨ b + d.length < a) (save : Nat) {fuel : Nat}
    (hfuel : s.length < fuel ∧ d.length < fuel) :
    ∃ fields : List (Nat × Nat), (∀ i n, (i, n) ∈ fields ↔ FieldAt (· ∉ d) s i n) ∧
      fields.Pairwise (fun f g => f.1 + f.2 < g.1) ∧
      ∀ k, ∃ save' m' touched,
        Mem.strtokCalls fuel a b save m k =
          some ((fields[k]?.map fun f => a + f.1, save'), m', touched) ∧
        (∀ x ∈ touched, a ≤ x ∧ x ≤ a + s.length ∨ b ≤ x ∧ x ≤ b + d.length) ∧
        (∀ x, x < a ∨ a + s.length < x → m' x = m x) ∧
        ∀ j ≤ k, ∀ f, fields[j]? = some f → m'.CStringAt (a + f.1) ((s.drop f.1).take f.2) := by
  obtain ⟨fields, hmem, hsorted, hnth⟩ := nthField_complete (· ∉ d) s
  refine ⟨fields, hmem, hsorted, ?_⟩
  intro k
  obtain ⟨q, m', touched, hrun, hin, hcut⟩ :=
    Mem.strtokCalls_cut ⟨hs, hs0, hd, hd0, happart, hfuel⟩ save k
  rw [hnth] at hrun
  refine ⟨a + q, m', touched, hrun, hin, ?_, ?_⟩
  · intro x hx
    have hle := hcut.le
    exact hcut.frame x (by omega)
  · intro j hj f hf
    exact (hcut.tokens j (by omega) f.1 f.2 ((hnth j).trans hf)).1

/-- A memory with `",a,,b"` at address 100 and `","` at address 200. -/
def commaList : ByteMem :=
  strcpy (strcpy (fun _ => 0) 100 (str [',', 'a', ',', ',', 'b'])) 200 (str [','])

/-- Two fields, and the third call returns `NULL`. -/
theorem strtok_enumerates_commas : ∃ fields : List (Nat × Nat),
    (∀ i n, (i, n) ∈ fields ↔ FieldAt (· ∉ str [',']) (str [',', 'a', ',', ',', 'b']) i n) ∧
    fields[0]?.map (fun f => 100 + f.1) = some 101 ∧
      fields[1]?.map (fun f => 100 + f.1) = some 104 ∧
    fields[2]?.map (fun f => 100 + f.1) = none := by
  have hs : commaList.CStringAt 100 (str [',', 'a', ',', ',', 'b']) := by
    unfold ByteMem.CStringAt
    decide
  have hd : commaList.CStringAt 200 (str [',']) := by
    unfold ByteMem.CStringAt
    decide
  have hfuel : (str [',', 'a', ',', ',', 'b']).length < 9 ∧ (str [',']).length < 9 := by decide
  obtain ⟨fields, hmem, -, hcalls⟩ := strtok_enumerates hs (by unfold NulFree; decide) hd
    (by unfold NulFree; decide) (by decide) 0 hfuel
  have htoken : ∀ k, (Mem.strtokCalls 9 100 200 0 commaList k).map (fun r => r.1.1) =
      some (fields[k]?.map fun f => 100 + f.1) := by
    intro k
    obtain ⟨save', m', touched, hrun, -⟩ := hcalls k
    rw [hrun]
    rfl
  refine ⟨fields, hmem, ?_, ?_, ?_⟩
  · exact Option.some.inj ((htoken 0).symm.trans (by decide))
  · exact Option.some.inj ((htoken 1).symm.trans (by decide))
  · exact Option.some.inj ((htoken 2).symm.trans (by decide))

end OsArm
