import OsArm.Shell

/-!
# The input line (`shell` in `shell.c`)

`shell` edits a line in the 256 bytes of `input`, and then cuts the command off its arguments.

* `readLine`, `splitArgs` — the two loops; the echo is left out.
* `edit` — what a byte does to a line, in terms of the line.
* `HoldsLine` — the buffer against the line; `HoldsLine.typeByte` is one byte, `readLine_spec` the
  loop.
* `EditsLine` — the line is a string in its buffer, and so are the command and its arguments.
* `editsLine_iff` — it is, unless 255 characters are kept before the line ends: then nothing stores
  the terminator, and `input` ends with what was there before.
-/

namespace OsArm

/-! ## The loops -/

/-- `MAX_INPUT`. -/
def maxInput : Nat := 256

/-- `input` and `pos`, with the offsets of `input` that were stored to. -/
structure LineBuf where
  input : ByteMem
  pos : Nat
  stores : List Nat

/-- `input[pos] = c`. -/
def LineBuf.store (b : LineBuf) (c : UInt8) : LineBuf :=
  { b with input := b.input.set b.pos c, stores := b.stores ++ [b.pos] }

/-- One turn of the reading loop, with the byte of `uart_getc`; `true` for `break`. -/
def typeByte (b : LineBuf) (c : UInt8) : LineBuf × Bool :=
  if c = 13 ∨ c = 10 then (b.store 0, true)
  else if (c = 127 ∨ c = 8) ∧ b.pos > 0 then ({ b with pos := b.pos - 1 }, false)
  else if 32 ≤ c ∧ c ≤ 126 then ({ b.store c with pos := b.pos + 1 }, false)
  else (b, false)

/-- The reading loop, and the bytes it has left to `uart_getc`; `none` while it waits for more. -/
def readLine (b : LineBuf) : List UInt8 → Option (LineBuf × List UInt8)
  | [] => if b.pos < maxInput - 1 then none else some (b, [])
  | c :: cs =>
    if b.pos < maxInput - 1 then
      match typeByte b c with
      | (b, true) => some (b, cs)
      | (b, false) => readLine b cs
    else some (b, c :: cs)

/-- The loop that looks for a blank from `i` on, with `n` bytes to go: `input`, `args` and the
offsets that were looked at. -/
def splitArgs (input : ByteMem) (i : Nat) : Nat → ByteMem × Option Nat × List Nat
  | 0 => (input, none, [])
  | n + 1 =>
    if input i = blank then (input.set i 0, some (i + 1), [i])
    else
      let (input, args, reads) := splitArgs input (i + 1) n
      (input, args, i :: reads)

/-! ## The line -/

/-- CR or LF. -/
def isEnd (c : UInt8) : Bool := c = 13 ∨ c = 10

/-- What a byte does to the line. -/
def edit (line : Str) (c : UInt8) : Str :=
  if 32 ≤ c ∧ c ≤ 126 then line ++ [c]
  else if c = 127 ∨ c = 8 then line.dropLast
  else line

/-- The line behind the bytes in front of CR or LF. -/
def typed (bytes : List UInt8) : Str := (bytes.takeWhile fun c => ¬ isEnd c).foldl edit []

/-- `cmd` and `args` are the line in front of the first blank, and behind it. -/
def SplitsLine (input : ByteMem) (args : Option Nat) (line : Str) : Prop :=
  input.CStringAt 0 (line.takeWhile (· ≠ blank)) ∧
    match args with
    | none => blank ∉ line
    | some a => ∃ rest, line = line.takeWhile (· ≠ blank) ++ blank :: rest ∧
        a = (line.takeWhile (· ≠ blank)).length + 1 ∧ input.CStringAt a rest

/-- **The line is edited correctly**: it is a string inside `input`, no byte outside is touched, and
what is parsed are the bytes of the line. -/
structure EditsLine (b : LineBuf) (line : Str) : Prop where
  terminated : b.input.CStringAt 0 line
  nul_free : NulFree line
  pos : b.pos = line.length
  inside : line.length < maxInput
  stores : ∀ x ∈ b.stores, x < maxInput
  splits : SplitsLine (splitArgs b.input 0 b.pos).1 (splitArgs b.input 0 b.pos).2.1 line
  reads : ∀ x ∈ (splitArgs b.input 0 b.pos).2.2, x < line.length

/-- **The condition**: fewer than 255 characters are kept at any time, before the line ends. -/
def Short (bytes : List UInt8) : Prop :=
  ∀ pre, pre <+: bytes.takeWhile (fun c => ¬ isEnd c) → (pre.foldl edit []).length < maxInput - 1

/-! ## The reading loop -/

/-- The buffer holds the line, in front of the last byte of `input`, which is `last`. -/
structure HoldsLine (b : LineBuf) (line : Str) (last : UInt8) : Prop where
  pos : b.pos = line.length
  bytes : ∀ i (h : i < line.length), b.input i = (line)[i]
  nul_free : NulFree line
  last : b.input (maxInput - 1) = last
  stores : ∀ x ∈ b.stores, x < maxInput - 1

namespace HoldsLine

variable {b : LineBuf} {line : Str} {last c : UInt8}

theorem edit_nulFree (h : NulFree line) (c : UInt8) : NulFree (edit line c) := by
  unfold edit
  split
  · next hc =>
    intro hmem
    rcases List.mem_append.1 hmem with hmem | hmem
    · exact h hmem
    · rw [← List.mem_singleton.1 hmem] at hc
      exact absurd hc (by decide)
  · split
    · exact fun hmem => h (List.dropLast_subset line hmem)
    · exact h

theorem store_inside (h : HoldsLine b line last) (hlt : line.length < maxInput - 1) (c : UInt8) :
    (b.store c).input (maxInput - 1) = last ∧ ∀ x ∈ (b.store c).stores, x < maxInput - 1 := by
  constructor
  · rw [← h.last]
    exact ByteMem.set_of_ne (by rw [h.pos]; omega)
  · intro x hx
    rcases List.mem_append.1 hx with hx | hx
    · exact h.stores x hx
    · rw [List.mem_singleton.1 hx, h.pos]
      exact hlt

/-- **One byte** that does not end the line. -/
theorem typeByte (h : HoldsLine b line last) (hlt : line.length < maxInput - 1)
    (hc : isEnd c = false) :
    (typeByte b c).2 = false ∧ HoldsLine (OsArm.typeByte b c).1 (edit line c) last := by
  have hend : ¬ (c = 13 ∨ c = 10) := by simpa [isEnd] using hc
  unfold OsArm.typeByte
  rw [if_neg hend]
  by_cases hprint : 32 ≤ c ∧ c ≤ 126
  · have hedit : edit line c = line ++ [c] := if_pos hprint
    have hback : ¬ ((c = 127 ∨ c = 8) ∧ b.pos > 0) := by
      rintro ⟨rfl | rfl, -⟩ <;> exact absurd hprint (by decide)
    obtain ⟨hlast, hstores⟩ := h.store_inside hlt c
    rw [if_neg hback, if_pos hprint]
    refine ⟨rfl, ?_, ?_, edit_nulFree h.nul_free c, hlast, hstores⟩
    · rw [hedit, List.length_append, h.pos]
      rfl
    · intro i hi
      simp only [hedit, List.length_append, List.length_singleton] at hi ⊢
      by_cases hlen : i < line.length
      · rw [List.getElem_append_left hlen, ← h.bytes i hlen]
        exact ByteMem.set_of_ne (by rw [h.pos]; omega)
      · have hi' : i = b.pos := by
          rw [h.pos]
          omega
        subst hi'
        rw [List.getElem_append_right (by omega)]
        simp [LineBuf.store]
  · by_cases hback : c = 127 ∨ c = 8
    · have hedit : edit line c = line.dropLast := by rw [edit, if_neg hprint, if_pos hback]
      by_cases hpos : b.pos > 0
      · rw [if_pos ⟨hback, hpos⟩]
        refine ⟨rfl, ?_, ?_, edit_nulFree h.nul_free c, h.last, h.stores⟩
        · rw [hedit, List.length_dropLast, h.pos]
        · intro i hi
          simp only [hedit, List.length_dropLast, List.getElem_dropLast] at hi ⊢
          exact h.bytes i (by omega)
      · rw [if_neg fun hand => hpos hand.2, if_neg hprint]
        have hnil : line = [] := List.length_eq_zero_iff.1 (by rw [← h.pos]; omega)
        rw [hedit, hnil]
        rw [hnil] at h
        exact ⟨rfl, h⟩
    · rw [if_neg fun hand => hback hand.1, if_neg hprint, edit, if_neg hprint, if_neg hback]
      exact ⟨rfl, h⟩

end HoldsLine

/-- **The reading loop** ends with a terminator behind the line, or with 255 characters. -/
theorem readLine_spec {b b' : LineBuf} {line : Str} {last : UInt8} {bytes rest : List UInt8}
    (h : HoldsLine b line last) (hle : line.length ≤ maxInput - 1)
    (hread : readLine b bytes = some (b', rest)) :
    (∃ pre e, bytes = pre ++ e :: rest ∧ isEnd e = true ∧ (∀ c ∈ pre, isEnd c = false) ∧
      HoldsLine b' (pre.foldl edit line) last ∧ b'.input (pre.foldl edit line).length = 0 ∧
      ∀ pre', pre' <+: pre → (pre'.foldl edit line).length < maxInput - 1) ∨
    ∃ used, bytes = used ++ rest ∧ (∀ c ∈ used, isEnd c = false) ∧
      HoldsLine b' (used.foldl edit line) last ∧ (used.foldl edit line).length = maxInput - 1 := by
  induction bytes generalizing b line with
  | nil =>
    rw [readLine] at hread
    split at hread
    · cases hread
    · next hpos =>
      cases hread
      rw [h.pos] at hpos
      exact Or.inr ⟨[], rfl, fun c hc => (by cases hc), h, by simp only [List.foldl_nil]; omega⟩
  | cons c cs ih =>
    rw [readLine] at hread
    split at hread
    · next hpos =>
      rw [h.pos] at hpos
      cases hc : isEnd c with
      | true =>
        have hend : c = 13 ∨ c = 10 := by simpa [isEnd] using hc
        rw [typeByte, if_pos hend] at hread
        cases hread
        obtain ⟨hlast, hstores⟩ := h.store_inside hpos 0
        refine Or.inl ⟨[], c, rfl, hc, fun d hd => (by cases hd), ?_, ?_, ?_⟩
        · refine ⟨h.pos, ?_, h.nul_free, hlast, hstores⟩
          intro i hi
          rw [List.foldl_nil] at hi
          show (b.store 0).input i = (line)[i]
          rw [← h.bytes i hi]
          exact ByteMem.set_of_ne (by rw [h.pos]; omega)
        · rw [List.foldl_nil, ← h.pos]
          exact ByteMem.set_self _ _ _
        · intro pre' hpre
          rw [List.prefix_nil.1 hpre]
          exact hpos
      | false =>
        obtain ⟨hgo, hnext⟩ := h.typeByte hpos hc
        have hread' : readLine (typeByte b c).1 cs = some (b', rest) := by
          rw [← hread]
          generalize typeByte b c = r at hgo
          obtain ⟨b₁, stop⟩ := r
          cases hgo
          rfl
        have hle' : (edit line c).length ≤ maxInput - 1 := by
          unfold edit
          split
          · rw [List.length_append, List.length_singleton]
            omega
          · split
            · rw [List.length_dropLast]
              omega
            · exact hle
        rcases ih hnext hle' hread' with ⟨pre, e, rfl, he, hpre, hholds, hzero, hshort⟩ |
          ⟨used, rfl, hused, hholds, hfull⟩
        · refine Or.inl ⟨c :: pre, e, rfl, he, List.forall_mem_cons.2 ⟨hc, hpre⟩, hholds, hzero, ?_⟩
          intro pre' hpre'
          cases pre' with
          | nil => exact hpos
          | cons d ds =>
            obtain ⟨rfl, hds⟩ := List.cons_prefix_cons.1 hpre'
            exact hshort ds hds
        · exact Or.inr ⟨c :: used, rfl, List.forall_mem_cons.2 ⟨hc, hused⟩, hholds, hfull⟩
    · next hpos =>
      cases hread
      rw [h.pos] at hpos
      exact Or.inr ⟨[], rfl, fun d hd => (by cases hd), h, by simp only [List.foldl_nil]; omega⟩

/-! ## The parsing loop -/

theorem takeWhile_blank {pre : Str} (h : blank ∉ pre) (suf : Str) :
    (pre ++ suf).takeWhile (· ≠ blank) = pre ++ suf.takeWhile (· ≠ blank) := by
  refine List.takeWhile_append_of_pos ?_
  intro c hc
  exact decide_eq_true fun heq => h (heq ▸ hc)

/-- **The parsing loop** finds the first blank of the line, and looks at bytes of it only. -/
theorem splitArgs_spec {input : ByteMem} (pre suf : Str) (h : input.CStringAt 0 (pre ++ suf))
    (hpre : blank ∉ pre) :
    SplitsLine (splitArgs input pre.length suf.length).1 (splitArgs input pre.length suf.length).2.1
        (pre ++ suf) ∧
      ∀ x ∈ (splitArgs input pre.length suf.length).2.2, x < (pre ++ suf).length := by
  induction suf generalizing pre with
  | nil =>
    have hcut : (pre ++ []).takeWhile (· ≠ blank) = pre ++ [] := takeWhile_blank hpre []
    refine ⟨?_, fun x hx => by cases hx⟩
    unfold SplitsLine
    rw [hcut]
    exact ⟨h, by rwa [List.append_nil]⟩
  | cons c suf ih =>
    have hbyte : input pre.length = c := by
      have hat := h.1 pre.length (by simp)
      rwa [Nat.zero_add, List.getElem_append_right (Nat.le_refl _), List.getElem_cons,
        dif_pos (Nat.sub_self _)] at hat
    rw [List.length_cons, splitArgs, hbyte]
    by_cases hc : c = blank
    · subst hc
      have hcut : (pre ++ blank :: suf).takeWhile (· ≠ blank) = pre := by
        rw [takeWhile_blank hpre, List.takeWhile_cons, if_neg (by decide), List.append_nil]
      rw [if_pos rfl]
      refine ⟨?_, ?_⟩
      · unfold SplitsLine
        rw [hcut]
        refine ⟨⟨fun i hi => ?_, ?_⟩, suf, rfl, rfl, fun i hi => ?_, ?_⟩ <;> dsimp only
        · rw [ByteMem.set_of_ne (by omega), h.1 i (by rw [List.length_append]; omega),
            List.getElem_append_left hi]
        · rw [Nat.zero_add]
          exact ByteMem.set_self _ _ _
        · have hat := h.1 (pre.length + 1 + i) (by rw [List.length_append, List.length_cons]; omega)
          rw [Nat.zero_add, List.getElem_append_right (by omega)] at hat
          rw [ByteMem.set_of_ne (by omega), hat]
          simp [Nat.add_assoc, Nat.add_comm 1 i]
        · have hend := h.2
          rw [Nat.zero_add, List.length_append, List.length_cons] at hend
          rw [ByteMem.set_of_ne (by omega), ← hend]
          congr 1
          omega
      · intro x hx
        rw [List.mem_singleton.1 hx, List.length_append, List.length_cons]
        omega
    · rw [if_neg hc]
      have hpre' : blank ∉ pre ++ [c] := by
        rw [List.mem_append, List.mem_singleton]
        exact fun hor => hor.elim hpre fun heq => hc heq.symm
      have hline : pre ++ [c] ++ suf = pre ++ c :: suf := by simp
      have hnext := ih (pre ++ [c]) (by rwa [hline]) hpre'
      rw [hline, List.length_append, List.length_singleton] at hnext
      refine ⟨hnext.1, ?_⟩
      intro x hx
      rcases List.mem_cons.1 hx with rfl | hx
      · rw [List.length_append, List.length_cons]
        omega
      · exact hnext.2 x hx

/-! ## The whole line -/

section Line

variable {b : LineBuf} {line : Str} {last : UInt8} {bytes pre rest : List UInt8}

/-- A line that is followed by its terminator is edited correctly. -/
theorem HoldsLine.editsLine (h : HoldsLine b line last) (hle : line.length ≤ maxInput - 1)
    (hzero : b.input line.length = 0) : EditsLine b line := by
  have hmax : maxInput - 1 < maxInput := by decide
  have hstring : b.input.CStringAt 0 line := by
    refine ⟨?_, ?_⟩
    · intro i hi
      rw [Nat.zero_add]
      exact h.bytes i hi
    · rwa [Nat.zero_add]
  obtain ⟨hsplits, hreads⟩ := splitArgs_spec [] line hstring List.not_mem_nil
  rw [List.length_nil, List.nil_append, ← h.pos] at hsplits hreads
  rw [h.pos] at hreads
  refine ⟨hstring, h.nul_free, h.pos, by omega, fun x hx => ?_, hsplits, ?_⟩
  · exact Nat.lt_trans (h.stores x hx) hmax
  · rw [h.pos]
    exact hreads

theorem takeWhile_isEnd {e : UInt8} (hpre : ∀ c ∈ pre, isEnd c = false) (he : isEnd e = true) :
    (pre ++ e :: rest).takeWhile (fun c => ¬ isEnd c) = pre := by
  rw [List.takeWhile_append_of_pos fun c hc => by simp [hpre c hc], List.takeWhile_cons,
    if_neg (by simp [he]), List.append_nil]

/-- **When the line is edited correctly.**  Whatever `uart_getc` delivers, when the reading loop has
ended the line is a terminated string, equal to the bytes applied in order, and is parsed inside
what was typed, if and only if fewer than 255 characters were kept at any time or the last byte of
`input` was zero before. -/
theorem editsLine_iff {m : ByteMem}
    (h : readLine { input := m, pos := 0, stores := [] } bytes = some (b, rest)) :
    ∃ used, bytes = used ++ rest ∧
      (EditsLine b (typed used) ↔ Short bytes ∨ m (maxInput - 1) = 0) := by
  have hstart : HoldsLine { input := m, pos := 0, stores := [] } [] (m (maxInput - 1)) :=
    ⟨rfl, fun i hi => absurd hi (Nat.not_lt_zero i), List.not_mem_nil, rfl, fun x hx => by cases hx⟩
  rcases readLine_spec hstart (Nat.zero_le _) h with
    ⟨pre, e, rfl, he, hpre, hholds, hzero, hshort⟩ |
    ⟨used, rfl, hused, hholds, hfull⟩
  · refine ⟨pre ++ [e], by simp, ?_⟩
    have htyped : typed (pre ++ [e]) = pre.foldl edit [] := by
      rw [typed, takeWhile_isEnd hpre he]
    have hle := Nat.le_of_lt (hshort pre (List.prefix_refl pre))
    rw [htyped]
    refine iff_of_true (hholds.editsLine hle hzero) (Or.inl ?_)
    unfold Short
    rw [takeWhile_isEnd hpre he]
    exact hshort
  · refine ⟨used, rfl, ?_⟩
    have hall : ∀ c ∈ used, (decide ¬ (isEnd c = true)) = true := fun c hc => by simp [hused c hc]
    have htyped : typed used = used.foldl edit [] := by
      rw [typed, List.takeWhile_eq_self_iff.2 hall]
    rw [htyped]
    constructor
    · intro hedits
      refine Or.inr ?_
      have hend := hedits.terminated.2
      rwa [Nat.zero_add, hfull, hholds.last] at hend
    · rintro (hshort | hzero)
      · -- 255 characters were kept
        have hlt := hshort used (by
          rw [List.takeWhile_append_of_pos hall]
          exact List.prefix_append used _)
        omega
      · refine hholds.editsLine (Nat.le_of_eq hfull) ?_
        rw [hfull, hholds.last, hzero]

/-- The line `a`, and CR. -/
theorem editsLine_iff_a : ∃ b, readLine { input := fun _ => 1, pos := 0, stores := [] } [97, 13] =
    some (b, []) ∧ EditsLine b (str ['a']) := by
  obtain ⟨b, hb⟩ : ∃ b, readLine { input := fun _ => 1, pos := 0, stores := [] } [97, 13] =
    some (b, []) := ⟨_, rfl⟩
  obtain ⟨used, hused, hiff⟩ := editsLine_iff hb
  rw [List.append_nil] at hused
  subst hused
  have hshort : Short [97, 13] := by
    intro pre hpre
    have hcut : ([97, 13] : List UInt8).takeWhile (fun c => ¬ isEnd c) = [97] := by decide
    have hone : (97 : UInt8) :: [] = str ['a'] := rfl
    rw [hcut] at hpre
    rcases List.prefix_cons_iff.1 hpre with rfl | ⟨t, rfl, ht⟩
    · decide
    · rw [List.prefix_nil.1 ht]
      decide
  exact ⟨b, hb, hiff.2 (Or.inl hshort)⟩

/-- Letters fill the buffer. -/
theorem readLine_letters {n : Nat} (hpos : b.pos + n = maxInput - 1) :
    ∃ b', readLine b (List.replicate n 97) = some (b', []) := by
  induction n generalizing b with
  | zero => exact ⟨b, if_neg (by omega)⟩
  | succ n ih =>
    have hturn : typeByte b 97 = ({ b.store 97 with pos := b.pos + 1 }, false) := by
      rw [typeByte, if_neg (by decide), if_neg (by simp), if_pos (by decide)]
    have hlt : b.pos < maxInput - 1 := by omega
    rw [List.replicate_succ, readLine, if_pos hlt, hturn]
    exact ih (b := { b.store 97 with pos := b.pos + 1 }) (by simp only; omega)

/-- **A line of 255 letters has no terminator**, and the last byte of `input` belongs to it. -/
theorem full_line_unterminated :
    ∃ b, readLine { input := fun _ => 1, pos := 0, stores := [] } (List.replicate 255 97) =
        some (b, []) ∧
      (typed (List.replicate 255 97)).length = 255 ∧ b.input 255 = 1 ∧
      ¬ EditsLine b (typed (List.replicate 255 97)) := by
  obtain ⟨m, hm⟩ : ∃ m : ByteMem, m = fun _ => 1 := ⟨_, rfl⟩
  rw [← hm]
  obtain ⟨b, hb⟩ := readLine_letters (n := 255) (b := { input := m, pos := 0, stores := [] }) rfl
  have hstart : HoldsLine { input := m, pos := 0, stores := [] } [] 1 :=
    ⟨rfl, fun i hi => absurd hi (Nat.not_lt_zero i), List.not_mem_nil, by rw [hm],
      fun x hx => by cases hx⟩
  have hends : ∀ c ∈ List.replicate 255 (97 : UInt8), isEnd c = false := by
    intro c hc
    rw [List.eq_of_mem_replicate hc]
    rfl
  rcases readLine_spec hstart (Nat.zero_le _) hb with ⟨pre, e, heq, he, -⟩ |
    ⟨used, heq, -, hholds, hfull⟩
  · have hmem : e ∈ List.replicate 255 (97 : UInt8) := by
      rw [heq]
      simp
    rw [hends e hmem] at he
    cases he
  · rw [List.append_nil] at heq
    subst heq
    have htyped : typed (List.replicate 255 97) = (List.replicate 255 97).foldl edit [] := by
      rw [typed, List.takeWhile_eq_self_iff.2 fun c hc => by simp [hends c hc]]
    rw [htyped]
    refine ⟨b, hb, hfull, hholds.last, ?_⟩
    intro hedits
    have hend := hedits.terminated.2
    rw [Nat.zero_add, hfull, hholds.last] at hend
    exact absurd hend (by decide)

end Line

end OsArm
