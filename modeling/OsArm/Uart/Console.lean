import OsArm.Shell.Editing
import OsArm.Uart.Basic

/-!
# The shell's line at the console (`shell` in `shell.c`)

The reading loop of `shell` with the driver under it, and with its echo.

* `readInput`, `shellInput` — the loop over the registers, and the prompt in front of it.
* `echo` — what the loop writes for the bytes it has read.
* `shellInput_run` — however the device and the loop take turns, the line is `readLine` of the bytes
  that came in, in their order, and the echo is that of these bytes.
* `Terminal` — what a terminal shows of the bytes it gets; `Terminal.Shows.echo` — while a line is
  typed it shows the prompt and the line, and the cursor stands behind them.
-/

namespace OsArm

open Mmio (Outline)
open Pl011 (At)

/-! ## The loop -/

/-- `PROMPT`. -/
def prompt : Str := str ['$', ' ']

/-- What a turn writes for the byte it has read. -/
def echoByte (b : LineBuf) (c : UInt8) : List UInt8 :=
  if c = 13 ∨ c = 10 then [13, 10]
  else if (c = 127 ∨ c = 8) ∧ b.pos > 0 then [8, 32, 8]
  else if 32 ≤ c ∧ c ≤ 126 then [c]
  else []

/-- What the loop writes for the bytes it reads. -/
def echo (b : LineBuf) : List UInt8 → List UInt8
  | [] => []
  | c :: cs => echoByte b c ++ if (typeByte b c).2 then [] else echo (typeByte b c).1 cs

/-- One turn: the echo of a byte.  The two literals are at `nl` and `bs`. -/
def echoTurn (nl bs : Nat) (b : LineBuf) (c : UInt8) : Mmio Reg (LineBuf × Bool) :=
  if c = 13 ∨ c = 10 then do
    uartPuts nl [10]
    return (b.store 0, true)
  else if (c = 127 ∨ c = 8) ∧ b.pos > 0 then do
    uartPuts bs [8, 32, 8]
    return ({ b with pos := b.pos - 1 }, false)
  else if 32 ≤ c ∧ c ≤ 126 then do
    uartPutc c
    return ({ b.store c with pos := b.pos + 1 }, false)
  else return (b, false)

/-- The reading loop of `shell`, of at most `turns` turns; `none` if it needs more. -/
def readInput (nl bs : Nat) : Nat → LineBuf → Mmio Reg (Option LineBuf)
  | 0, _ => pure none
  | turns + 1, b =>
    if b.pos < maxInput - 1 then do
      let c ← uartGetc
      let (b, stop) ← echoTurn nl bs b c
      if stop then pure (some b) else readInput nl bs turns b
    else pure (some b)

/-- The prompt, and then the loop: `input` is as the line before has left it. -/
def shellInput (pr nl bs turns : Nat) (b : LineBuf) : Mmio Reg (Option LineBuf) := do
  uartPuts pr prompt
  readInput nl bs turns { b with pos := 0 }

/-! ## Any interleaving -/

section Outlines

variable {depth nl bs turns : Nat} {d d' : Pl011} {out got : List UInt8}
  {c : UInt8} {b b' : LineBuf}

/-- **One turn** does to the buffer what `typeByte` says, and echoes the byte. -/
theorem echoTurn_outline (hdepth : 0 < depth) :
    Outline (pl011 depth) (fun _ => True)
      (fun r d => r = typeByte b c ∧ At (out ++ echoByte b c) got d) (At out got)
      (echoTurn nl bs b c) := by
  have hret : ∀ r o, r = typeByte b c → o = out ++ echoByte b c →
      Outline (pl011 depth) (fun _ => True)
        (fun r d => r = typeByte b c ∧ At (out ++ echoByte b c) got d) (At o got) (pure r) := by
    rintro r o hr rfl
    refine .weaken (fun d hd => ⟨hr, hd⟩) (.done r ?_ fun _ _ => trivial)
    exact fun d e d' hd hown => ⟨hd.1, (hd.2.own hown).1⟩
  have hputs : ∀ a s r, r = typeByte b c → crlf s = echoByte b c →
      Outline (pl011 depth) (fun _ => True)
        (fun r d => r = typeByte b c ∧ At (out ++ echoByte b c) got d) (At out got)
        (do uartPuts a s; pure r) := by
    intro a s r hr hs
    refine (uartPuts_outline hdepth fun _ _ _ _ _ => trivial).bind fun _ => ?_
    exact .weaken (fun d hd => hd.1) (hret r _ hr (by rw [hs]))
  unfold echoTurn
  by_cases hend : c = 13 ∨ c = 10
  · rw [if_pos hend]
    refine hputs nl [10] _ ?_ ?_
    · rw [typeByte, if_pos hend]
    · rw [echoByte, if_pos hend]
      rfl
  · rw [if_neg hend]
    by_cases hback : (c = 127 ∨ c = 8) ∧ b.pos > 0
    · rw [if_pos hback]
      refine hputs bs [8, 32, 8] _ ?_ ?_
      · rw [typeByte, if_neg hend, if_pos hback]
      · rw [echoByte, if_neg hend, if_pos hback]
        decide
    · rw [if_neg hback]
      by_cases hprint : 32 ≤ c ∧ c ≤ 126
      · rw [if_pos hprint]
        refine (uartPutc_outline hdepth (fun _ _ => trivial) fun _ _ => trivial).bind fun _ => ?_
        refine hret _ _ ?_ ?_
        · rw [typeByte, if_neg hend, if_neg hback, if_pos hprint]
        · rw [echoByte, if_neg hend, if_neg hback, if_pos hprint]
      · rw [if_neg hprint]
        refine hret _ _ ?_ ?_
        · rw [typeByte, if_neg hend, if_neg hback, if_neg hprint]
        · rw [echoByte, if_neg hend, if_neg hback, if_neg hprint, List.append_nil]

/-- What holds when the loop has ended with a line: which bytes it has read, and what it has
written. -/
def Read (b : LineBuf) (out got : List UInt8) (r : Option LineBuf) (d : Pl011) : Prop :=
  ∀ b', r = some b' → ∃ used, readLine b used = some (b', []) ∧
    At (out ++ echo b used) (got ++ used) d

theorem read_stable (r : Option LineBuf) : (pl011 depth).Stable (Read b out got r) := by
  intro d e d' hd hown b' hb'
  obtain ⟨used, hread, hat⟩ := hd b' hb'
  exact ⟨used, hread, (hat.own hown).1⟩

/-- **The loop**, by its turns. -/
theorem readInput_outline (hdepth : 0 < depth) :
    Outline (pl011 depth) (fun _ => True) (Read b out got) (At out got)
      (readInput nl bs turns b) := by
  induction turns generalizing b out got with
  | zero =>
    exact .weaken (fun d _ b' hb' => by cases hb')
      (.done none (read_stable none) fun _ _ => trivial)
  | succ turns ih =>
    rw [readInput]
    by_cases hpos : b.pos < maxInput - 1
    · rw [if_pos hpos]
      refine (uartGetc_outline hdepth (fun _ _ => trivial) fun _ _ _ => trivial).bind fun c => ?_
      refine (echoTurn_outline hdepth).bind ?_
      rintro ⟨b₁, stop⟩
      cases stop with
      | true =>
        refine .weaken ?_ (.done (some b₁) (read_stable _) fun _ _ => trivial)
        rintro d ⟨hturn, hd⟩ b' hb'
        cases hb'
        refine ⟨[c], ?_, ?_⟩
        · rw [readLine, if_pos hpos, ← hturn]
        · rw [echo, ← hturn]
          simpa using hd
      | false =>
        by_cases hturn : (b₁, false) = typeByte b c
        · refine .weaken (fun d hd => hd.2)
            ((ih (b := b₁)).conclude ?_ read_stable fun _ _ _ => trivial)
          intro r d hd b' hb'
          obtain ⟨used, hread, hat⟩ := hd b' hb'
          refine ⟨c :: used, ?_, ?_⟩
          · rw [readLine, if_pos hpos, ← hturn]
            exact hread
          · rw [echo, ← hturn, if_neg Bool.false_ne_true, ← List.append_assoc, List.append_cons]
            exact hat
        · exact .unreached read_stable (fun _ _ _ => trivial) (fun d hd => hturn hd.1) _
    · rw [if_neg hpos]
      refine .weaken ?_ (.done (some b) (read_stable _) fun _ _ => trivial)
      intro d hd b' hb'
      cases hb'
      refine ⟨[], ?_, ?_⟩
      · rw [readLine, if_neg hpos]
      · simpa [echo] using hd

/-- When `shell` has read a line, the bytes it has used are the next ones that came in, the buffer
is what `readLine` makes of them, and behind the prompt the terminal was given their echo. -/
theorem shellInput_run {pr : Nat} {tr : List (Option Pl011Event)} (hdepth : 0 < depth)
    (hd : At d.given d.taken d)
    (hrun : (Mmio.lts (pl011 depth) _).Run (shellInput pr nl bs turns b, d) tr
    (.done (some b'), d')) :
    ∃ used, readLine { b with pos := 0 } used = some (b', []) ∧
      d'.heard = d.taken ++ used ++ d'.rx ∧
      d'.given = d.given ++ (prompt ++ echo { b with pos := 0 } used) := by
  have hprompt : crlf prompt = prompt := by decide
  have hout : Outline (pl011 depth) (fun _ => True)
      (Read { b with pos := 0 } (d.given ++ prompt) d.taken) (At d.given d.taken)
      (shellInput pr nl bs turns b) := by
    refine (uartPuts_outline hdepth fun _ _ _ _ _ => trivial).bind fun _ => ?_
    rw [hprompt]
    exact .weaken (fun e he => he.1) (readInput_outline hdepth)
  obtain ⟨used, hread, hat⟩ := (hout.sound hd hrun).2 _ rfl b' rfl
  refine ⟨used, hread, ?_, ?_⟩
  · rw [← hat.taken]
    exact hat.heard
  · rw [← List.append_assoc]
    exact hat.given

end Outlines

/-! ## What the terminal shows -/

/-- The row that a terminal writes to: its characters, and the column of the cursor.  Rows have no
end, so a long line does not go on in the next one. -/
structure Terminal where
  row : Str
  col : Nat

namespace Terminal

/-- What a terminal does with a byte: backspace and carriage return move the cursor, a line feed
goes to the next row, and a character is put where the cursor stands. -/
def feed (t : Terminal) (c : UInt8) : Terminal :=
  if c = 8 then { t with col := t.col - 1 }
  else if c = 13 then { t with col := 0 }
  else if c = 10 then { t with row := List.replicate t.col blank }
  else { row := t.row.take t.col ++ c :: t.row.drop (t.col + 1), col := t.col + 1 }

/-- The row shows the text, with nothing but blanks behind it, and the cursor is at its end. -/
def Shows (t : Terminal) (text : Str) : Prop :=
  t.col = text.length ∧ ∃ n, t.row = text ++ List.replicate n blank

variable {t : Terminal} {text line : Str} {c : UInt8} {b : LineBuf}

/-- A character is appended. -/
theorem Shows.put (h : t.Shows text) (hc : 32 ≤ c) : (t.feed c).Shows (text ++ [c]) := by
  obtain ⟨hcol, n, hrow⟩ := h
  have h8 : c ≠ 8 := by rintro rfl; exact absurd hc (by decide)
  have h13 : c ≠ 13 := by rintro rfl; exact absurd hc (by decide)
  have h10 : c ≠ 10 := by rintro rfl; exact absurd hc (by decide)
  rw [feed, if_neg h8, if_neg h13, if_neg h10]
  refine ⟨by simp [hcol], n - 1, ?_⟩
  rw [hrow, hcol]
  simp

/-- Backspace, blank, backspace takes the last character away. -/
theorem Shows.rub (h : t.Shows (text ++ [c])) :
    ([8, blank, 8].foldl feed t).Shows text := by
  obtain ⟨hcol, n, hrow⟩ := h
  have hback : t.feed 8 = { t with col := text.length } := by
    rw [feed, if_pos rfl, hcol]
    simp
  have hblank : (t.feed 8).feed blank =
      { row := text ++ List.replicate (n + 1) blank, col := text.length + 1 } := by
    rw [hback, feed, if_neg (by decide), if_neg (by decide), if_neg (by decide), hrow]
    simp [List.replicate_succ]
  rw [List.foldl_cons, List.foldl_cons, hblank, List.foldl_cons, List.foldl_nil, feed, if_pos rfl]
  exact ⟨rfl, n + 1, rfl⟩

/-- **One byte** that does not end the line: the terminal goes along with the buffer. -/
theorem Shows.echoByte {front : Str} {last : UInt8} (h : t.Shows (front ++ line))
    (hb : HoldsLine b line last) (hc : isEnd c = false) :
    ((echoByte b c).foldl feed t).Shows (front ++ edit line c) := by
  have hend : ¬ (c = 13 ∨ c = 10) := by simpa [isEnd] using hc
  rw [OsArm.echoByte, if_neg hend]
  by_cases hprint : 32 ≤ c ∧ c ≤ 126
  · have hback : ¬ ((c = 127 ∨ c = 8) ∧ b.pos > 0) := by
      rintro ⟨rfl | rfl, -⟩ <;> exact absurd hprint (by decide)
    rw [if_neg hback, if_pos hprint, edit, if_pos hprint, ← List.append_assoc]
    exact h.put hprint.1
  · by_cases hback : c = 127 ∨ c = 8
    · have hedit : edit line c = line.dropLast := by rw [edit, if_neg hprint, if_pos hback]
      rw [hedit]
      rcases List.eq_nil_or_concat line with hnil | ⟨init, x, hline⟩
      · have hpos : ¬ b.pos > 0 := by simp [hb.pos, hnil]
        rw [if_neg fun hand => hpos hand.2, if_neg hprint, hnil]
        rw [hnil] at h
        exact h
      · have hpos : b.pos > 0 := by simp [hb.pos, hline]
        rw [List.concat_eq_append] at hline
        rw [if_pos ⟨hback, hpos⟩, hline, List.dropLast_concat]
        rw [hline, ← List.append_assoc] at h
        exact h.rub
    · rw [if_neg fun hand => hback hand.1, if_neg hprint, edit, if_neg hprint, if_neg hback]
      exact h

/-- **While a line is typed** the terminal shows the prompt and the line. -/
theorem Shows.echo {front : Str} {last : UInt8} {bytes : List UInt8} (h : t.Shows (front ++ line))
    (hb : HoldsLine b line last) (hbytes : ∀ c ∈ bytes, isEnd c = false)
    (hshort : ∀ pre, pre <+: bytes → pre ≠ bytes → (pre.foldl edit line).length < maxInput - 1) :
    ((echo b bytes).foldl feed t).Shows (front ++ bytes.foldl edit line) := by
  induction bytes generalizing t b line with
  | nil => exact h
  | cons c bytes ih =>
    have hc := hbytes c List.mem_cons_self
    have hlt : line.length < maxInput - 1 :=
      hshort [] List.nil_prefix (List.cons_ne_nil c bytes).symm
    obtain ⟨hgoes, hb'⟩ := hb.typeByte hlt hc
    rw [OsArm.echo, hgoes, if_neg Bool.false_ne_true, List.foldl_append, List.foldl_cons]
    refine ih (h.echoByte hb hc) hb' (fun x hx => hbytes x (List.mem_cons_of_mem c hx)) ?_
    intro pre hpre hne
    exact hshort (c :: pre) (List.cons_prefix_cons.2 ⟨rfl, hpre⟩) (by simpa using hne)

/-- The echo of a line, and of the byte that ends it. -/
theorem echo_end {last e : UInt8} {bytes : List UInt8} (hb : HoldsLine b line last)
    (hbytes : ∀ c ∈ bytes, isEnd c = false) (he : isEnd e = true)
    (hshort : ∀ pre, pre <+: bytes → pre ≠ bytes → (pre.foldl edit line).length < maxInput - 1) :
    OsArm.echo b (bytes ++ [e]) = OsArm.echo b bytes ++ [13, 10] := by
  induction bytes generalizing b line with
  | nil =>
    have hend : e = 13 ∨ e = 10 := by simpa [isEnd] using he
    simp [OsArm.echo, OsArm.echoByte, hend, typeByte]
  | cons c bytes ih =>
    have hlt : line.length < maxInput - 1 :=
      hshort [] List.nil_prefix (List.cons_ne_nil c bytes).symm
    obtain ⟨hgoes, hb'⟩ := hb.typeByte hlt (hbytes c List.mem_cons_self)
    rw [List.cons_append, OsArm.echo, hgoes, if_neg Bool.false_ne_true, OsArm.echo, hgoes,
      if_neg Bool.false_ne_true, List.append_assoc]
    congr 1
    refine ih hb' (fun x hx => hbytes x (List.mem_cons_of_mem c hx)) ?_
    intro pre hpre hne
    exact hshort (c :: pre) (List.cons_prefix_cons.2 ⟨rfl, hpre⟩) (by simpa using hne)

theorem prompt_shows {front : Str} (h : t.Shows front) : (prompt.foldl feed t).Shows
    (front ++ prompt) := by
  have hdollar : (t.feed 36).Shows (front ++ [36]) := h.put (by decide)
  have hblank : ((t.feed 36).feed 32).Shows (front ++ [36] ++ [32]) := hdollar.put (by decide)
  rwa [List.append_assoc] at hblank

end Terminal

/-- Where the loop has used all bytes, the line was short before the last one. -/
theorem readLine_short {b b' : LineBuf} {line : Str} {last : UInt8} {bytes : List UInt8}
    (hb : HoldsLine b line last) (hbytes : ∀ c ∈ bytes, isEnd c = false)
    (hread : readLine b bytes = some (b', [])) (pre : List UInt8) (hpre : pre <+: bytes)
    (hne : pre ≠ bytes) : (pre.foldl edit line).length < maxInput - 1 := by
  induction bytes generalizing b line pre with
  | nil => exact absurd (List.prefix_nil.1 hpre) hne
  | cons c bytes ih =>
    rw [readLine] at hread
    split at hread
    · next hpos =>
      rw [hb.pos] at hpos
      obtain ⟨hgoes, hb'⟩ := hb.typeByte hpos (hbytes c List.mem_cons_self)
      have hread' : readLine (typeByte b c).1 bytes = some (b', []) := by
        rw [← hread]
        generalize typeByte b c = r at hgoes
        obtain ⟨b₁, stop⟩ := r
        cases hgoes
        rfl
      cases pre with
      | nil => exact hpos
      | cons x xs =>
        obtain ⟨rfl, hxs⟩ := List.cons_prefix_cons.1 hpre
        exact ih hb' (fun y hy => hbytes y (List.mem_cons_of_mem _ hy)) hread' xs hxs
          (by simpa using hne)
    · cases hread

/-- **What is typed at the console is what the shell parses and what the user sees**, in any
interleaving of `shell` with the device: the bytes used are the next that came in; the row shows the
prompt and the line that they make; and that line is what the buffer holds, with a terminator and a
new row behind it unless 255 characters ended it. -/
theorem shellInput_screen {depth pr nl bs turns p : Nat} {m : ByteMem} {d d' : Pl011} {b' : LineBuf}
    {tr : List (Option Pl011Event)} {t : Terminal} {front : Str} (hdepth : 0 < depth)
    (hd : At d.given d.taken d) (ht : t.Shows front)
    (hrun : (Mmio.lts (pl011 depth) _).Run
      (shellInput pr nl bs turns { input := m, pos := p, stores := [] }, d) tr
        (.done (some b'), d')) :
    ∃ used shown behind, d'.heard = d.taken ++ used ++ d'.rx ∧
      d'.given = d.given ++ (shown ++ behind) ∧
      (shown.foldl Terminal.feed t).Shows (front ++ prompt ++ typed used) ∧
      HoldsLine b' (typed used) (m (maxInput - 1)) ∧
      (behind = [13, 10] ∧ b'.input.CStringAt 0 (typed used) ∨
        behind = [] ∧ (typed used).length = maxInput - 1) := by
  obtain ⟨used, hread, hheard, hgiven⟩ := shellInput_run hdepth hd hrun
  have hempty : HoldsLine { input := m, pos := 0, stores := [] } [] (m (maxInput - 1)) :=
    ⟨rfl, fun i hi => absurd hi (Nat.not_lt_zero i), by simp [NulFree], rfl,
      fun x hx => by cases hx⟩
  have hprompt := Terminal.prompt_shows ht
  rw [← List.append_nil (front ++ prompt)] at hprompt
  rcases readLine_spec hempty (Nat.zero_le _) hread with
    ⟨pre, e, rfl, he, hpre, hholds, hnul, hshort⟩ | ⟨pre, rfl, hpre, hholds, hlen⟩
  · have hshort' : ∀ x, x <+: pre → x ≠ pre → (x.foldl edit []).length < maxInput - 1 :=
      fun x hx _ => hshort x hx
    have htyped : typed (pre ++ [e]) = pre.foldl edit [] := by
      rw [typed, takeWhile_isEnd hpre he]
    refine ⟨pre ++ [e], prompt ++ echo { input := m, pos := 0, stores := [] } pre,
      [13, 10], hheard, ?_, ?_, ?_, ?_⟩
    · rw [hgiven, Terminal.echo_end hempty hpre he hshort', List.append_assoc]
    · rw [List.foldl_append, htyped]
      exact hprompt.echo hempty hpre hshort'
    · rw [htyped]
      exact hholds
    · rw [htyped]
      refine Or.inl ⟨rfl, fun i hi => ?_, ?_⟩
      · rw [Nat.zero_add]
        exact hholds.bytes i hi
      · rw [Nat.zero_add]
        exact hnul
  · rw [List.append_nil] at hread
    have hshort := readLine_short hempty hpre hread
    have htyped : typed pre = pre.foldl edit [] := by
      rw [typed, List.takeWhile_eq_self_iff.2 fun c hc => by simp [hpre c hc]]
    rw [List.append_nil] at hheard hgiven
    refine ⟨pre, prompt ++ echo { input := m, pos := 0, stores := [] } pre, [],
      hheard, ?_, ?_, ?_, ?_⟩
    · rw [hgiven, List.append_nil]
    · rw [List.foldl_append, htyped]
      exact hprompt.echo hempty hpre hshort
    · rw [htyped]
      exact hholds
    · rw [htyped]
      exact Or.inr ⟨rfl, hlen⟩

/-- A console at which `"a"` is typed, then delete, `"b"` and carriage return. -/
def bootConsole : Pl011 where
  tx := []
  shift := none
  rx := [97, 127, 98, 13]
  sent := []
  heard := [97, 127, 98, 13]
  taken := []
  config reg := if reg = .cr then 0x301 else 0x70

/-- An access, and then a run. -/
theorem reachable_access {α : Type} {depth : Nat} {x y : Mmio Reg α} {d d' : Pl011}
    {z : Mmio Reg α × Pl011} (h : x.access (pl011 depth) d = some (y, d'))
    (hz : (Mmio.lts (pl011 depth) α).Reachable (y, d') z) :
    (Mmio.lts (pl011 depth) α).Reachable (x, d) z := by
  obtain ⟨tr, hrun⟩ := hz
  exact ⟨_, Mmio.access_cons h hrun⟩

/-- The device sends what it has, and then a run. -/
theorem Pl011.reachable_sends {α : Type} {depth : Nat} {x : Mmio Reg α} {d : Pl011}
    {cs : List UInt8} {z : Mmio Reg α × Pl011} (hon : d.Enabled) (hshift : d.shift = none)
    (htx : d.tx = cs) (hz : (Mmio.lts (pl011 depth) α).Reachable
      (x, { d with tx := [], shift := none, sent := d.sent ++ cs }) z) :
    (Mmio.lts (pl011 depth) α).Reachable (x, d) z := by
  induction cs generalizing d with
  | nil =>
    have hsame : { d with tx := [], shift := none, sent := d.sent ++ [] } = d := by
      rw [List.append_nil, ← htx, ← hshift]
    rwa [hsame] at hz
  | cons c cs ih =>
    rw [List.append_cons] at hz
    obtain ⟨tr, hrun⟩ :=
      ih (d := { d with tx := cs, shift := none, sent := d.sent ++ [c] }) hon rfl rfl hz
    have hstart : (pl011 depth).own d .start { d with tx := cs, shift := some c } :=
      Pl011.start_step depth hon hshift htx
    have hfinish : (pl011 depth).own { d with tx := cs, shift := some c } .finish
        { d with tx := cs, shift := none, sent := d.sent ++ [c] } := Pl011.finish_step depth rfl
    exact ⟨_, Mmio.event_cons hstart (Mmio.event_cons hfinish hrun)⟩

/-- The buffer at the end of that line. -/
def bootInput : LineBuf where
  input := ((ByteMem.set (fun _ => 0) 0 97).set 0 98).set 1 0
  pos := 1
  stores := [0, 0, 1]

theorem shellInput_bootConsole : (Mmio.lts (pl011 16) _).Reachable
    (shellInput 0 0 0 4 { input := fun _ => 0, pos := 7, stores := [] }, bootConsole)
    (.done (some bootInput), { bootConsole with
      rx := [], sent := [36, 32, 97, 8, 32, 8, 98, 13, 10], taken := [97, 127, 98, 13] }) := by
  -- the prompt
  refine reachable_access rfl
    (reachable_access rfl (reachable_access rfl (reachable_access rfl ?_)))
  refine Pl011.reachable_sends rfl rfl rfl (reachable_access rfl ?_)
  -- `"a"`
  refine reachable_access rfl
    (reachable_access rfl (reachable_access rfl (reachable_access rfl ?_)))
  -- delete
  refine reachable_access rfl (reachable_access rfl ?_)
  refine reachable_access rfl
    (reachable_access rfl (reachable_access rfl (reachable_access rfl ?_)))
  refine reachable_access rfl (reachable_access rfl ?_)
  refine Pl011.reachable_sends rfl rfl rfl (reachable_access rfl ?_)
  -- `"b"`
  refine reachable_access rfl
    (reachable_access rfl (reachable_access rfl (reachable_access rfl ?_)))
  -- carriage return
  refine reachable_access rfl (reachable_access rfl ?_)
  refine reachable_access rfl
    (reachable_access rfl (reachable_access rfl (reachable_access rfl ?_)))
  exact Pl011.reachable_sends rfl rfl rfl (reachable_access rfl (Lts.Reachable.refl _))

/-- The user sees the prompt and `"b"`. -/
theorem shellInput_screen_edited : ∃ used shown behind, [97, 127, 98, 13] = used ∧
    [36, 32, 97, 8, 32, 8, 98, 13, 10] = shown ++ behind ∧
    (shown.foldl Terminal.feed { row := [], col := 0 }).Shows (prompt ++ str ['b']) := by
  have hat : At bootConsole.given bootConsole.taken bootConsole := ⟨⟨rfl, rfl, rfl⟩, rfl, by decide⟩
  obtain ⟨tr, hrun⟩ := shellInput_bootConsole
  obtain ⟨used, shown, behind, hheard, hgiven, hshows, -, -⟩ := shellInput_screen (by omega) hat
    (show Terminal.Shows { row := [], col := 0 } [] from ⟨rfl, 0, rfl⟩) hrun
  obtain rfl : [97, 127, 98, 13] = used := by simpa [bootConsole] using hheard
  have htyped : typed [97, 127, 98, 13] = str ['b'] := by decide
  rw [htyped] at hshows
  exact ⟨_, shown, behind, rfl, by simpa [bootConsole, Pl011.given] using hgiven, hshows⟩

end OsArm
