import OsArm.Uart.Basic

/-!
# What `kernel_main` prints before `uart_init` (`kernel.c`)

`kernel_main` prints where it has put the user shell and what its first bytes are, and calls
`uart_init` after that.

* `bootMessages`, `kernelStart` — the calls up to and with `uart_init`.
* `Sends`, `Waits` — programs that only hand over bytes, and those that then wait for them to be
  sent.
* `boot_needs_uart` — a device that is off sends nothing, so the first message is never over and
  `uart_init` is not reached; one that is on gets all messages.
-/

namespace OsArm

open Pl011

open Mmio (Outline)

/-! ## The calls -/

/-- The loop over the first bytes of the user shell; `lit` says where a literal is. -/
def bootBytes (lit : Str → Nat) : List UInt8 → Mmio Reg Unit
  | [] => pure ()
  | b :: bytes => do
    uartHex (lit (str ['0', 'x'])) (UInt64.ofNat b.toNat)
    uartPuts (lit (str [' '])) (str [' '])
    bootBytes lit bytes

/-- `"User shell loaded to 0x80000000, size: "`. -/
def loadedText : Str :=
  str ['U', 's', 'e', 'r', ' ', 's', 'h', 'e', 'l', 'l', ' ', 'l', 'o', 'a', 'd', 'e',
    'd', ' ', 't', 'o', ' ', '0', 'x', '8', '0', '0', '0', '0', '0', '0', '0', ',', ' ', 's', 'i',
    'z', 'e', ':', ' ']

/-- `" bytes (hex)\n"`. -/
def sizeText : Str := str [' ', 'b', 'y', 't', 'e', 's', ' ', '(', 'h', 'e', 'x', ')', '\n']

/-- `"First 16 bytes of user shell: "`. -/
def firstText : Str :=
  str ['F', 'i', 'r', 's', 't', ' ', '1', '6', ' ', 'b', 'y', 't', 'e', 's', ' ', 'o',
    'f', ' ', 'u', 's', 'e', 'r', ' ', 's', 'h', 'e', 'l', 'l', ':', ' ']

/-- What `kernel_main` prints before `uart_init`. -/
def bootMessages (lit : Str → Nat) (size : UInt64) (bytes : List UInt8) : Mmio Reg Unit := do
  uartPuts (lit loadedText) loadedText
  uartHex (lit (str ['0', 'x'])) size
  uartPuts (lit sizeText) sizeText
  uartPuts (lit firstText) firstText
  bootBytes lit bytes
  uartPuts (lit (str ['\n'])) (str ['\n'])

/-- `kernel_main` up to `uart_init`, for a user shell of `size` bytes that begins with `bytes`. -/
def kernelStart (lit : Str → Nat) (size : UInt64) (bytes : List UInt8) : Mmio Reg Unit := do
  bootMessages lit size bytes
  uartInit

/-! ## Programs that send -/

/-- The program hands over bytes, and does nothing else. -/
inductive Sends : Mmio Reg Unit → Prop
  | done : Sends (.done ())
  | room {next : Mmio Reg Unit} : Sends next → Sends (.poll .fr frTxff next)
  | give {v : UInt32} {next : Mmio Reg Unit} : Sends next → Sends (.write .dr v next)
  | idle {next : Mmio Reg Unit} : Sends next → Sends (.poll .fr frBusy next)

/-- The program hands over bytes and then waits until they have been sent, whatever comes after
that. -/
inductive Waits {α : Type} : Mmio Reg α → Prop
  | room {next : Mmio Reg α} : Waits next → Waits (.poll .fr frTxff next)
  | give {v : UInt32} {next : Mmio Reg α} : Waits next → Waits (.write .dr v next)
  | idle (next : Mmio Reg α) : Waits (.poll .fr frBusy next)

section Programs

variable {α : Type} {x y : Mmio Reg Unit} {f : Unit → Mmio Reg α}

theorem Sends.bind (hx : Sends x) (hy : Sends y) : Sends (x >>= fun _ => y) := by
  induction hx with
  | done => exact hy
  | room _ ih => exact .room ih
  | give _ ih => exact .give ih
  | idle _ ih => exact .idle ih

theorem Sends.bind_waits (hx : Sends x) (hf : Waits (f ())) : Waits (x >>= f) := by
  induction hx with
  | done => exact hf
  | room _ ih => exact .room ih
  | give _ ih => exact .give ih
  | idle _ ih => exact .idle _

theorem uartPutc_sends (c : UInt8) : Sends (uartPutc c) := .room (.give .done)

/-- The wait at every eighth address. -/
theorem uartWait_sends (a : Nat) :
    Sends (if (a + 1) % 8 = 0 then mmioWait .fr frBusy else pure ()) := by
  split
  · exact .idle .done
  · exact .done

theorem uartPutsLoop_sends (a : Nat) (s : Str) : Sends (uartPutsLoop a s) := by
  induction s generalizing a with
  | nil => exact .done
  | cons c s ih =>
    have hcarriage : Sends (if c = 10 then uartPutc 13 else pure ()) := by
      split
      · exact uartPutc_sends 13
      · exact .done
    exact hcarriage.bind ((uartPutc_sends c).bind ((uartWait_sends a).bind (ih (a + 1))))

/-- The first byte of a string, and the rest of the call. -/
theorem uartPuts_cons (a : Nat) (c : UInt8) (s : Str) : ∃ v next, Waits next ∧
    uartPuts a (c :: s) = .poll .fr frTxff (.write .dr v next) := by
  have hrest : Sends ((if (a + 1) % 8 = 0 then mmioWait .fr frBusy else pure ()) >>= fun _ =>
      uartPutsLoop (a + 1) s) := (uartWait_sends a).bind (uartPutsLoop_sends (a + 1) s)
  by_cases hc : c = 10
  · subst hc
    exact ⟨_, _, ((uartPutc_sends 10).bind hrest).bind_waits
      (f := fun _ => mmioWait .fr frBusy) (.idle _), rfl⟩
  · refine ⟨c.toUInt32, _, hrest.bind_waits (f := fun _ => mmioWait .fr frBusy) (.idle _), ?_⟩
    rw [uartPuts, uartPutsLoop, if_neg hc]
    rfl

end Programs

/-! ## A device that is off -/

/-- How far a program has come: it is about to give its first byte, or it waits with what it has
given. -/
def Stopped {α : Type} (x : Mmio Reg α) (d : Pl011) : Prop :=
  (∃ v next, Waits next ∧ (x = .poll .fr frTxff (.write .dr v next) ∨ x = .write .dr v next) ∧
    d.tx = []) ∨
    Waits x ∧ d.tx ≠ []

/-- It never comes to an end. -/
theorem Stopped.not_done {α : Type} {x : Mmio Reg α} {d : Pl011} (h : Stopped x d) (r : α) :
    x ≠ .done r := by
  rintro rfl
  rcases h with ⟨v, next, -, heq | heq, -⟩ | ⟨h, -⟩
  · cases heq
  · cases heq
  · cases h

section Off

variable {α : Type} {depth a : Nat} {x y : Mmio Reg α} {d d' : Pl011} {s : Str}

/-- By itself the device does nothing. -/
theorem own_off {e : Pl011Event} (hoff : ¬ d.Enabled) (hshift : d.shift = none)
    (hown : Pl011.own depth d e d') : d' = d := by
  cases e with
  | start => exact absurd hown.1 hoff
  | finish =>
    obtain ⟨c, hc, -⟩ := hown
    rw [hshift] at hc
    cases hc
  | arrive c => exact absurd hown.1 hoff
  | overrun c => exact hown.2

/-- What is written goes into the queue, or is lost. -/
theorem write_off (depth : Nat) (d : Pl011) (v : UInt32) : ∃ tx,
    d.write depth .dr v = { d with tx := tx } ∧
    (d.tx ≠ [] ∨ 0 < depth → tx ≠ []) := by
  by_cases hroom : d.tx.length < d.capacity depth
  · refine ⟨d.tx ++ [v.toUInt8], if_pos hroom, fun _ => ?_⟩
    exact List.append_ne_nil_of_right_ne_nil _ (List.cons_ne_nil _ _)
  · refine ⟨d.tx, if_neg hroom, ?_⟩
    rintro (hne | hdepth) hnil
    · exact hne hnil
    · refine hroom ?_
      rw [hnil, capacity]
      split
      · exact Nat.one_pos
      · exact hdepth

/-- **One access**: bytes go into the queue, and nothing comes out. -/
theorem Stopped.access (hdepth : 0 < depth) (h : Stopped x d)
    (hstep : x.access (pl011 depth) d = some (y, d')) :
    Stopped y d' ∧ d'.config = d.config ∧ d'.shift = d.shift ∧ d'.sent = d.sent := by
  have hread : ((pl011 depth).read .fr d).2 = d := rfl
  rcases h with ⟨v, next, hwaits, rfl | rfl, htx⟩ | ⟨hwaits, htx⟩
  · -- before the first byte
    simp only [Mmio.access, hread, Option.some.injEq, Prod.mk.injEq] at hstep
    obtain ⟨rfl, rfl⟩ := hstep
    refine ⟨Or.inl ⟨v, next, hwaits, ?_, htx⟩, rfl, rfl, rfl⟩
    split
    · exact Or.inr rfl
    · exact Or.inl rfl
  · obtain ⟨tx, hwrite, hne⟩ := write_off depth d v
    have hafter : (pl011 depth).write .dr v d = { d with tx := tx } := hwrite
    simp only [Mmio.access, hafter, Option.some.injEq, Prod.mk.injEq] at hstep
    obtain ⟨rfl, rfl⟩ := hstep
    exact ⟨Or.inr ⟨hwaits, hne (Or.inr hdepth)⟩, rfl, rfl, rfl⟩
  · cases hwaits with
    | @room next hnext =>
      simp only [Mmio.access, hread, Option.some.injEq, Prod.mk.injEq] at hstep
      obtain ⟨rfl, rfl⟩ := hstep
      refine ⟨Or.inr ⟨?_, htx⟩, rfl, rfl, rfl⟩
      split
      · exact hnext
      · exact .room hnext
    | @give v next hnext =>
      obtain ⟨tx, hwrite, hne⟩ := write_off depth d v
      have hafter : (pl011 depth).write .dr v d = { d with tx := tx } := hwrite
      simp only [Mmio.access, hafter, Option.some.injEq, Prod.mk.injEq] at hstep
      obtain ⟨rfl, rfl⟩ := hstep
      exact ⟨Or.inr ⟨hnext, hne (Or.inl htx)⟩, rfl, rfl, rfl⟩
    | idle next =>
      -- the queue is not empty: the loop goes on
      have hbusy : ¬ ((pl011 depth).read .fr d).1 &&& frBusy = 0 :=
        fun hclear => htx (read_busy.1 hclear).1
      simp only [Mmio.access, hread, if_neg hbusy, Option.some.injEq, Prod.mk.injEq] at hstep
      obtain ⟨rfl, rfl⟩ := hstep
      exact ⟨Or.inr ⟨.idle next, htx⟩, rfl, rfl, rfl⟩

/-- Any run, also with more to come after it: it does not get that far. -/
theorem Stopped.run {β : Type} {f : α → Mmio Reg β} {z : Mmio Reg β} {tr : List (Option Pl011Event)}
    (hdepth : 0 < depth) (hoff : ¬ d.Enabled) (hshift : d.shift = none) (h : Stopped x d)
    (hrun : (Mmio.lts (pl011 depth) β).Run (x >>= f, d) tr (z, d')) :
    ∃ y, z = y >>= f ∧ (Mmio.lts (pl011 depth) α).Reachable (x, d) (y, d') ∧ Stopped y d' ∧
      d'.config = d.config ∧ d'.sent = d.sent := by
  have hinv := hrun.invariant (P := fun z => ∃ y, z.1 = y >>= f ∧
    (Mmio.lts (pl011 depth) α).Reachable (x, d) (y, z.2) ∧ Stopped y z.2 ∧ z.2.config = d.config ∧
      z.2.shift = none ∧ z.2.sent = d.sent) ?_ ⟨x, rfl, .refl _, h, rfl, hshift, rfl⟩
  · obtain ⟨y, hz, hreach, hstop, hconfig, -, hsent⟩ := hinv
    exact ⟨y, hz, hreach, hstop, hconfig, hsent⟩
  · rintro ⟨z₁, d₁⟩ e ⟨z₂, d₂⟩ ⟨y, hz, hreach, hstop, hconfig, hshift₁, hsent⟩ hstep
    have hz : z₁ = y >>= f := hz
    subst hz
    cases e with
    | none =>
      obtain ⟨y', haccess, hz₂⟩ := Mmio.access_bind hstop.not_done hstep
      obtain ⟨hstop', hconfig', hshift', hsent'⟩ := hstop.access hdepth haccess
      exact ⟨y', hz₂, hreach.tail (a := none) haccess, hstop', hconfig'.trans hconfig,
        hshift'.trans hshift₁, hsent'.trans hsent⟩
    | some e =>
      obtain ⟨hx, hown⟩ := hstep
      have hoff₁ : ¬ d₁.Enabled := by
        rw [Enabled, hconfig]
        exact hoff
      have hd : d₂ = d₁ := own_off hoff₁ hshift₁ hown
      subst hd
      exact ⟨y, hx, hreach, hstop, hconfig, hshift₁, hsent⟩

/-- **`uart_puts`** of a string is at its first byte. -/
theorem uartPuts_stopped (a : Nat) (hs : s ≠ []) (hidle : d.Idle) : Stopped (uartPuts a s) d := by
  obtain ⟨c, rest, rfl⟩ := List.exists_cons_of_ne_nil hs
  obtain ⟨v, next, hwaits, hcall⟩ := uartPuts_cons a c rest
  exact Or.inl ⟨v, next, hwaits, Or.inl hcall, hidle.1⟩

end Off

/-! ## A device that is on -/

/-- What `uart_hex` prints. -/
def hexText (n : UInt64) : List UInt8 := str ['0', 'x'] ++ hexDigits n 16

/-- What `kernel_main` prints. -/
def bootText (size : UInt64) (bytes : List UInt8) : List UInt8 :=
  crlf loadedText ++ (hexText size ++ (crlf sizeText ++ (crlf firstText ++
    (bytes.flatMap (fun b => hexText (UInt64.ofNat b.toNat) ++ str [' ']) ++ crlf (str ['\n'])))))

section On

variable {depth a : Nat} {out got : List UInt8} {s : Str} {n : UInt64}

theorem uartPuts_on (hdepth : 0 < depth) :
    Outline (pl011 depth) (fun _ => True) (fun _ => At (out ++ crlf s) got) (At out got)
      (uartPuts a s) :=
  (uartPuts_outline hdepth fun _ _ _ _ _ => trivial).conclude (fun _ _ h => h.1)
    (fun _ => stable_at)
    fun _ _ _ => trivial

theorem uartHex_on (hdepth : 0 < depth) :
    Outline (pl011 depth) (fun _ => True) (fun _ => At (out ++ hexText n) got) (At out got)
      (uartHex a n) := by
  have hliteral : crlf (str ['0', 'x']) = str ['0', 'x'] := by decide
  rw [hexText, ← List.append_assoc, ← hliteral]
  exact (uartPuts_on hdepth).bind fun _ => uartHexLoop_outline hdepth

theorem bootBytes_on (lit : Str → Nat) (hdepth : 0 < depth) (bytes : List UInt8) :
    Outline (pl011 depth) (fun _ => True)
      (fun _ => At (out ++ bytes.flatMap fun b => hexText (UInt64.ofNat b.toNat) ++ str [' ']) got)
        (At out got)
      (bootBytes lit bytes) := by
  induction bytes generalizing out with
  | nil =>
    rw [List.flatMap_nil, List.append_nil]
    exact .done () stable_at fun _ _ => trivial
  | cons b bytes ih =>
    have hblank : crlf (str [' ']) = str [' '] := by decide
    have hall : out ++ (b :: bytes).flatMap (fun b => hexText (UInt64.ofNat b.toNat) ++ str [' ']) =
        out ++ hexText (UInt64.ofNat b.toNat) ++ crlf (str [' ']) ++
          bytes.flatMap fun b => hexText (UInt64.ofNat b.toNat) ++ str [' '] := by
      rw [List.flatMap_cons, hblank]
      simp only [List.append_assoc]
    rw [hall]
    exact (uartHex_on hdepth).bind fun _ => (uartPuts_on hdepth).bind fun _ => ih

/-- All messages, and `uart_init`. -/
theorem kernelStart_on (lit : Str → Nat) (hdepth : 0 < depth) (size : UInt64) (bytes : List UInt8) :
    Outline (pl011 depth) (fun _ => True)
      (fun _ => At (out ++ bootText size bytes) got) (At out got)
      (kernelStart lit size bytes) := by
  have hmessages : Outline (pl011 depth) (fun _ => True)
    (fun _ => At (out ++ bootText size bytes) got)
      (At out got) (bootMessages lit size bytes) := by
    unfold bootText
    simp only [← List.append_assoc]
    exact (uartPuts_on hdepth).bind fun _ => (uartHex_on hdepth).bind fun _ =>
      (uartPuts_on hdepth).bind fun _ =>
      (uartPuts_on hdepth).bind fun _ => (bootBytes_on lit hdepth bytes).bind fun _ =>
        uartPuts_on hdepth
  exact hmessages.bind fun _ => .weaken (fun _ h => h.toThrough)
    (uartInit_outline fun _ _ => trivial)

end On

/-- **`kernel_main` prints before it calls `uart_init`.**  On a PL011 that is off and idle, as
after a reset, every run is in the first message, which is never over: `uart_init` is not reached,
nothing is sent, and no register but the data register is written.  On one that something else has
turned on, the messages are handed over as they are and `uart_init` can be reached from every
point. -/
theorem boot_needs_uart {depth : Nat} {lit : Str → Nat} {size : UInt64}
    {bytes : List UInt8} {d d' : Pl011} {x : Mmio Reg Unit} {tr : List (Option Pl011Event)}
    (hdepth : 0 < depth) (hheard : d.heard = d.taken ++ d.rx)
    (hrun : (Mmio.lts (pl011 depth) Unit).Run (kernelStart lit size bytes, d) tr (x, d')) :
    (d.config .cr &&& 1 = 0 → d.Idle →
      (∃ y rest, kernelStart lit size bytes = (uartPuts (lit loadedText) loadedText >>= rest) ∧
        x = y >>= rest ∧
        (Mmio.lts (pl011 depth) Unit).Reachable (uartPuts (lit loadedText) loadedText, d) (y, d') ∧
        ∀ r, y ≠ .done r) ∧
      (∀ r, x ≠ .done r) ∧ d'.config = d.config ∧ d'.sent = d.sent) ∧
    (d.Enabled → d.config .lcrh &&& 0x10 ≠ 0 →
      (∃ e, (Mmio.lts (pl011 depth) Unit).Reachable (x, d') (.done (), e)) ∧
      (x = .done () → d'.given = d.given ++ bootText size bytes)) := by
  constructor
  · intro hclear hidle
    have hoff : ¬ d.Enabled := by
      intro hon
      rw [Enabled] at hon
      rw [hon] at hclear
      exact absurd hclear (by decide)
    have hfirst : Stopped (uartPuts (lit loadedText) loadedText) d :=
      uartPuts_stopped _ (by decide) hidle
    have hstart : kernelStart lit size bytes = (uartPuts (lit loadedText) loadedText >>= _) :=
      Mmio.bind_assoc _ _ _
    rw [hstart] at hrun ⊢
    obtain ⟨y, rfl, hreach, hstop, hconfig, hsent⟩ := hfirst.run hdepth hoff hidle.2 hrun
    refine ⟨⟨y, _, rfl, rfl, hreach, hstop.not_done⟩, ?_, hconfig, hsent⟩
    exact Mmio.bind_ne_done hstop.not_done _
  · intro hon hqueues
    have hat : At d.given d.taken d := ⟨Pl011.through_self hheard, hon, hqueues⟩
    obtain ⟨P, hrest, hP⟩ := (kernelStart_on lit hdepth size bytes).run hat hrun
    refine ⟨?_, fun hx => (hrest.post hP hx).given⟩
    obtain ⟨_, e, hreach⟩ := hrest.finishes hP
    exact ⟨e, hreach⟩

/-- After a reset, the first byte is in the queue and stays there. -/
theorem boot_needs_uart_reset : ∃ x d', (Mmio.lts (pl011 16) Unit).Run
    (kernelStart (fun _ => 0) 1 [0], Pl011.reset) [none, none] (x, d') ∧
    d'.tx = str ['U'] ∧ d'.sent = [] ∧
      ∀ r, x ≠ .done r := by
  obtain ⟨x, d', hrun, htx⟩ : ∃ x d', (Mmio.lts (pl011 16) Unit).Run
      (kernelStart (fun _ => 0) 1 [0], Pl011.reset) [none, none] (x, d') ∧ d'.tx = str ['U'] :=
    ⟨_, _, Mmio.access_cons rfl (Mmio.access_cons rfl .nil), by decide⟩
  have hstops := (boot_needs_uart (by decide) rfl hrun).1 (by decide) (by decide)
  exact ⟨x, d', hrun, htx, hstops.2.2.2, hstops.2.1⟩

end OsArm
