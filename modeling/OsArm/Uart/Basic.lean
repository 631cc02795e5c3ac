import OsArm.CString
import OsArm.Lib.Mmio

/-!
# The UART driver (`uart.c`)

The kernel polls a PL011: it waits for a bit of the flag register, and then reads or writes the data
register.  The device moves bytes between its queues and the line meanwhile.

* `Pl011`, `pl011` — the device: the two queues with `depth` entries, the shift register, and the
  bytes that have gone through them.
* `uartInit`, `uartPutc`, `uartPuts`, `uartHex`, `uartGetc` — the functions.
* `Pl011.At` — what has been handed to the device so far, and got from it; the device alone does not
  change it.  `uartPutc_outline`, `uartPuts_outline`, `uartGetc_outline` say how the functions do.
* `uartPuts_run`, `uartHex_run` — whatever the device does in between, exactly the bytes of the
  string are sent, in order, and all have left the device when the function returns.
-/

namespace OsArm

open Mmio (Outline)

/-! ## The device -/

/-- The registers that the driver uses. -/
inductive Reg
  | dr
  | fr
  | ibrd
  | fbrd
  | lcrh
  | cr
  deriving DecidableEq

/-- The device.  `sent`, `heard` and `taken` are the bytes that have left on the line, that have
come in and were not lost, and that the processor has read. -/
structure Pl011 where
  tx : List UInt8
  shift : Option UInt8
  rx : List UInt8
  sent : List UInt8
  heard : List UInt8
  taken : List UInt8
  config : Reg → UInt32

/-- What the device does by itself. -/
inductive Pl011Event
  | start
  | finish
  | arrive (c : UInt8)
  | overrun (c : UInt8)

def frTxff : UInt32 := (1 : UInt32) <<< 5
def frRxfe : UInt32 := (1 : UInt32) <<< 4
def frBusy : UInt32 := (1 : UInt32) <<< 3

namespace Pl011

/-- The flag register. -/
def flags (txff rxfe busy : Bool) : UInt32 :=
  (if txff then frTxff else 0) ||| (if rxfe then frRxfe else 0) ||| (if busy then frBusy else 0)

/-- `UARTEN`, `TXE` and `RXE`. -/
def Enabled (d : Pl011) : Prop := d.config .cr = 0x301

/-- How many bytes a queue holds: one, unless the line control register turns the queues on. -/
def capacity (depth : Nat) (d : Pl011) : Nat := if d.config .lcrh &&& 0x10 = 0 then 1 else depth

/-- No byte waits to be sent. -/
def Idle (d : Pl011) : Prop := d.tx = [] ∧ d.shift = none

instance (d : Pl011) : Decidable d.Idle := inferInstanceAs (Decidable (_ ∧ _))

/-- Reading a register. -/
def read (depth : Nat) : Reg → Pl011 → UInt32 × Pl011
  | .fr, d => (flags (d.capacity depth ≤ d.tx.length) (d.rx = []) (¬ d.Idle), d)
  | .dr, d =>
    match d.rx with
    | [] => (0, d)
    | c :: rest => (c.toUInt32, { d with rx := rest, taken := d.taken ++ [c] })
  | reg, d => (d.config reg, d)

/-- Writing a register; what is written to a full queue is lost. -/
def write (depth : Nat) : Reg → UInt32 → Pl011 → Pl011
  | .dr, v, d => if d.tx.length < d.capacity depth then { d with tx := d.tx ++ [v.toUInt8] } else d
  | .fr, _, d => d
  | reg, v, d => { d with config := Function.update d.config reg v }

/-- The events. -/
def own (depth : Nat) (d : Pl011) : Pl011Event → Pl011 → Prop
  | .start, d' => d.Enabled ∧ d.shift = none ∧ ∃ c rest, d.tx = c :: rest ∧
      d' = { d with tx := rest, shift := some c }
  | .finish, d' => ∃ c, d.shift = some c ∧ d' = { d with shift := none, sent := d.sent ++ [c] }
  | .arrive c, d' => d.Enabled ∧ d.rx.length < d.capacity depth ∧
      d' = { d with rx := d.rx ++ [c], heard := d.heard ++ [c] }
  | .overrun _, d' => d.capacity depth ≤ d.rx.length ∧ d' = d

end Pl011

/-- The device with queues of `depth` entries. -/
def pl011 (depth : Nat) : Device Pl011 Reg Pl011Event where
  read := Pl011.read depth
  write := Pl011.write depth
  own := Pl011.own depth

/-! ## The functions -/

/-- `mmio_write(reg, val)`. -/
def mmioWrite (reg : Reg) (val : UInt32) : Mmio Reg Unit := .write reg val (.done ())

/-- `while (mmio_read(reg) & mask) { }`. -/
def mmioWait (reg : Reg) (mask : UInt32) : Mmio Reg Unit := .poll reg mask (.done ())

/-- `uart_init()`. -/
def uartInit : Mmio Reg Unit := do
  mmioWrite .cr 0
  mmioWrite .ibrd 26
  mmioWrite .fbrd 3
  mmioWrite .lcrh ((1 : UInt32) <<< 4 ||| (1 : UInt32) <<< 5 ||| (1 : UInt32) <<< 6)
  mmioWrite .cr ((1 : UInt32) <<< 0 ||| (1 : UInt32) <<< 8 ||| (1 : UInt32) <<< 9)

/-- `uart_putc(c)`. -/
def uartPutc (c : UInt8) : Mmio Reg Unit := do
  mmioWait .fr frTxff
  mmioWrite .dr c.toUInt32

/-- The loop of `uart_puts`, with `s` at the address `a`. -/
def uartPutsLoop (a : Nat) : Str → Mmio Reg Unit
  | [] => pure ()
  | c :: s => do
    (if c = 10 then uartPutc 13 else pure ())
    uartPutc c
    (if (a + 1) % 8 = 0 then mmioWait .fr frBusy else pure ())
    uartPutsLoop (a + 1) s

/-- `uart_puts(s)`, with `s` at the address `a`. -/
def uartPuts (a : Nat) (s : Str) : Mmio Reg Unit := do
  uartPutsLoop a s
  mmioWait .fr frBusy

/-- The character of a digit. -/
def hexDigit (digit : Nat) : UInt8 := UInt8.ofNat (digit + if digit < 10 then 48 else 97 - 10)

/-- The loop of `uart_hex`: `i = 4 * (turns - 1), …, 4, 0`. -/
def uartHexLoop (n : UInt64) : Nat → Mmio Reg Unit
  | 0 => pure ()
  | turns + 1 => do
    uartPutc (hexDigit (((n >>> UInt64.ofNat (4 * turns)) &&& 0xF).toNat))
    uartHexLoop n turns

/-- `uart_hex(n)`, with the literal at the address `a`. -/
def uartHex (a : Nat) (n : UInt64) : Mmio Reg Unit := do
  uartPuts a (str ['0', 'x'])
  uartHexLoop n 16

/-- `uart_getc()`. -/
def uartGetc : Mmio Reg UInt8 := do
  mmioWait .fr frRxfe
  .read .dr fun v => .done (v &&& 0xFF).toUInt8

/-! ## What went through the device -/

namespace Pl011

variable {depth : Nat} {d d' : Pl011} {out got : List UInt8} {c : UInt8}

/-- The bytes that have been handed to the device. -/
def given (d : Pl011) : List UInt8 := d.sent ++ (d.shift.toList ++ d.tx)

/-- **What went through**: these bytes were given to the device and these were taken from it; of
what it has heard nothing else is missing. -/
structure Through (out got : List UInt8) (d : Pl011) : Prop where
  given : d.given = out
  taken : d.taken = got
  heard : d.heard = d.taken ++ d.rx

/-- The same of a device that is on, with its queues. -/
structure At (out got : List UInt8) (d : Pl011) : Prop extends Through out got d where
  enabled : d.Enabled
  queues : d.config .lcrh &&& 0x10 ≠ 0

theorem flags_txff (txff rxfe busy : Bool) : flags txff rxfe busy &&& frTxff = 0 ↔
    txff = false := by
  cases txff <;> cases rxfe <;> cases busy <;> decide

theorem flags_rxfe (txff rxfe busy : Bool) : flags txff rxfe busy &&& frRxfe = 0 ↔
    rxfe = false := by
  cases txff <;> cases rxfe <;> cases busy <;> decide

theorem flags_busy (txff rxfe busy : Bool) : flags txff rxfe busy &&& frBusy = 0 ↔
    busy = false := by
  cases txff <;> cases rxfe <;> cases busy <;> decide

theorem read_txff : (d.read depth .fr).1 &&& frTxff = 0 ↔ d.tx.length < d.capacity depth := by
  simp [read, flags_txff]

theorem read_rxfe : (d.read depth .fr).1 &&& frRxfe = 0 ↔ d.rx ≠ [] := by
  simp [read, flags_rxfe]

theorem read_busy : (d.read depth .fr).1 &&& frBusy = 0 ↔ d.Idle := by
  simp [read, flags_busy]

theorem At.capacity (h : At out got d) (depth : Nat) : d.capacity depth = depth := if_neg h.queues

/-- **The device alone** changes nothing of it, and takes no room away. -/
theorem Through.own {e : Pl011Event} (h : Through out got d) (hown : own depth d e d') :
    Through out got d' ∧ d'.config = d.config ∧ d'.tx.length ≤ d.tx.length ∧
      d.rx.length ≤ d'.rx.length ∧ (d.Idle → d'.Idle) := by
  obtain ⟨hgiven, htaken, hheard⟩ := h
  unfold Pl011.given at hgiven
  cases e with
  | start =>
    obtain ⟨-, hshift, c, rest, htx, rfl⟩ := hown
    rw [hshift, htx] at hgiven
    refine ⟨⟨hgiven, htaken, hheard⟩, rfl, by simp [htx], Nat.le_refl _, ?_⟩
    intro hidle
    exact absurd (hidle.1.symm.trans htx) (List.cons_ne_nil c rest).symm
  | finish =>
    obtain ⟨c, hshift, rfl⟩ := hown
    rw [hshift] at hgiven
    refine ⟨⟨?_, htaken, hheard⟩, rfl, Nat.le_refl _, Nat.le_refl _, fun hidle => ⟨hidle.1, rfl⟩⟩
    rw [← hgiven]
    simp [Pl011.given]
  | arrive c =>
    obtain ⟨-, -, rfl⟩ := hown
    refine ⟨⟨hgiven, htaken, ?_⟩, rfl, Nat.le_refl _, by simp, id⟩
    show d.heard ++ [c] = d.taken ++ (d.rx ++ [c])
    rw [hheard, List.append_assoc]
  | overrun c =>
    obtain ⟨-, rfl⟩ := hown
    exact ⟨⟨hgiven, htaken, hheard⟩, rfl, Nat.le_refl _, Nat.le_refl _, id⟩

theorem At.own {e : Pl011Event} (h : At out got d) (hown : own depth d e d') :
    At out got d' ∧ d'.tx.length ≤ d.tx.length ∧ d.rx.length ≤ d'.rx.length ∧
      (d.Idle → d'.Idle) := by
  obtain ⟨hthrough, hconfig, htx, hrx, hidle⟩ := h.toThrough.own hown
  refine ⟨⟨hthrough, ?_, ?_⟩, htx, hrx, hidle⟩
  · rw [Enabled, hconfig]
    exact h.enabled
  · rw [hconfig]
    exact h.queues

/-! ### Assertions -/

theorem stable_at : (pl011 depth).Stable (At out got) := fun _ _ _ h hown => (h.own hown).1

theorem stable_room : (pl011 depth).Stable fun d => At out got d ∧ d.tx.length < depth := by
  rintro d e d' ⟨h, hlt⟩ hown
  obtain ⟨h', hle, -⟩ := h.own hown
  exact ⟨h', Nat.lt_of_le_of_lt hle hlt⟩

theorem stable_input : (pl011 depth).Stable fun d => At out got d ∧ d.rx ≠ [] := by
  rintro d e d' ⟨h, hne⟩ hown
  obtain ⟨h', -, hle, -⟩ := h.own hown
  refine ⟨h', fun hnil => hne (List.length_eq_zero_iff.1 ?_)⟩
  rw [hnil] at hle
  exact Nat.le_zero.1 hle

theorem stable_idle : (pl011 depth).Stable fun d => At out got d ∧ d.Idle := by
  rintro d e d' ⟨h, hidle⟩ hown
  obtain ⟨h', -, -, hstays⟩ := h.own hown
  exact ⟨h', hstays hidle⟩

/-! ### What the device can do -/

theorem start_step (depth : Nat) {rest : List UInt8} (hon : d.Enabled) (hshift : d.shift = none)
    (htx : d.tx = c :: rest) :
    (pl011 depth).alone.step d .start { d with tx := rest, shift := some c } :=
  ⟨hon, hshift, c, rest, htx, rfl⟩

theorem finish_step (depth : Nat) (hshift : d.shift = some c) :
    (pl011 depth).alone.step d .finish { d with shift := none, sent := d.sent ++ [c] } :=
  ⟨c, hshift, rfl⟩

/-- The device can send its queue. -/
theorem At.drains_queue (h : At out got d) (depth : Nat) (hshift : d.shift = none) :
    ∃ d', (pl011 depth).alone.Reachable d d' ∧ d'.Idle := by
  induction htx : d.tx generalizing d with
  | nil => exact ⟨d, .refl d, htx, hshift⟩
  | cons c rest ih =>
    have hstart := start_step depth h.enabled hshift htx
    have hboth := (Lts.Reachable.refl d).tail hstart |>.tail (finish_step depth rfl)
    obtain ⟨d', ⟨tr, hrun⟩, hidle⟩ := ih (stable_at.reachable h hboth) rfl rfl
    obtain ⟨tr', hrun'⟩ := hboth
    exact ⟨d', ⟨_, hrun'.append hrun⟩, hidle⟩

/-- **The device can send all that it has.** -/
theorem At.drains (h : At out got d) (depth : Nat) :
    ∃ d', (pl011 depth).alone.Reachable d d' ∧ At out got d' ∧ d'.Idle := by
  have hreach : ∃ d', (pl011 depth).alone.Reachable d d' ∧ d'.Idle := by
    cases hshift : d.shift with
    | none => exact h.drains_queue depth hshift
    | some c =>
      have hone := (Lts.Reachable.refl d).tail (finish_step depth hshift)
      obtain ⟨d', ⟨tr, hrun⟩, hidle⟩ := (stable_at.reachable h hone).drains_queue depth rfl
      obtain ⟨tr', hrun'⟩ := hone
      exact ⟨d', ⟨_, hrun'.append hrun⟩, hidle⟩
  obtain ⟨d', hd', hidle⟩ := hreach
  exact ⟨d', hd', stable_at.reachable h hd', hidle⟩

theorem clears_txff (hdepth : 0 < depth) : (pl011 depth).Clears (At out got) .fr frTxff := by
  intro d h
  obtain ⟨d', hreach, h', hidle⟩ := h.drains depth
  refine ⟨d', hreach, read_txff.2 ?_⟩
  rw [hidle.1, h'.capacity depth]
  exact hdepth

theorem clears_busy : (pl011 depth).Clears (At out got) .fr frBusy := by
  intro d h
  obtain ⟨d', hreach, -, hidle⟩ := h.drains depth
  exact ⟨d', hreach, read_busy.2 hidle⟩

/-- A byte can come in. -/
theorem clears_rxfe (hdepth : 0 < depth) : (pl011 depth).Clears (At out got) .fr frRxfe := by
  intro d h
  by_cases hnil : d.rx = []
  · have hroom : d.rx.length < d.capacity depth := by
      rw [hnil, h.capacity depth]
      exact hdepth
    refine ⟨_, Lts.Reachable.tail (.refl d) (a := .arrive 0) ⟨h.enabled, hroom, rfl⟩,
      read_rxfe.2 ?_⟩
    simp
  · exact ⟨d, .refl d, read_rxfe.2 hnil⟩

end Pl011

/-! ## What the functions do -/

/-- What the line gets of a string. -/
def crlf (s : Str) : List UInt8 := s.flatMap fun c => if c = 10 then [13, 10] else [c]

section Outlines

open Pl011

variable {depth a : Nat} {d d' : Pl011} {out got : List UInt8} {c : UInt8} {s : Str}
  {I : Pl011 → Prop} {v : UInt32} {reg : Reg}

theorem write_room (h : At out got d) (hlt : d.tx.length < depth) :
    At (out ++ [c]) got (d.write depth .dr c.toUInt32) := by
  rw [← h.capacity depth] at hlt
  have hwrite : d.write depth .dr c.toUInt32 = { d with tx := d.tx ++ [c] } := by
    rw [write, if_pos hlt]
    simp
  obtain ⟨⟨hgiven, htaken, hheard⟩, hon, hqueues⟩ := h
  rw [hwrite, ← hgiven]
  exact ⟨⟨by simp [Pl011.given], htaken, hheard⟩, hon, hqueues⟩

/-- **`uart_putc`** hands one byte to the device, which has room for it. -/
theorem uartPutc_outline (hdepth : 0 < depth) (hbefore : ∀ d, At out got d → I d)
    (hafter : ∀ d, At (out ++ [c]) got d → I d) :
    Outline (pl011 depth) I (fun _ => At (out ++ [c]) got) (At out got) (uartPutc c) := by
  refine .poll (N := fun d => At out got d ∧ d.tx.length < depth) stable_at hbefore
    (fun d hd => hd) (fun d hd hclear => ⟨hd, ?_⟩) (clears_txff hdepth) ?_
  · rw [← hd.capacity depth]
    exact read_txff.1 hclear
  · refine .write stable_room (fun d hd => hbefore d hd.1) (fun d hd => write_room hd.1 hd.2) ?_
    exact .done () stable_at hafter

/-- Waiting for the end of the transmission. -/
theorem uartIdle_outline (hI : ∀ d, At out got d → I d) :
    Outline (pl011 depth) I (fun _ d => At out got d ∧ d.Idle) (At out got)
      (mmioWait .fr frBusy) := by
  refine .poll (N := fun d => At out got d ∧ d.Idle) stable_at hI (fun d hd => hd)
    (fun d hd hclear => ⟨hd, read_busy.1 hclear⟩) clears_busy ?_
  exact .done () stable_idle fun d hd => hI d hd.1

/-- The byte that goes in front of a line feed. -/
theorem crlf_cons (c : UInt8) (s : Str) :
    crlf (c :: s) = (if c = 10 then [13] else []) ++ ([c] ++ crlf s) := by
  unfold crlf
  rw [List.flatMap_cons]
  split
  · next hc =>
    rw [hc]
    rfl
  · rfl

theorem uartPutsLoop_outline (hdepth : 0 < depth)
    (hI : ∀ sofar, out <+: sofar → sofar <+: out ++ crlf s → ∀ d, At sofar got d → I d) :
    Outline (pl011 depth) I (fun _ => At (out ++ crlf s) got) (At out got) (uartPutsLoop a s) := by
  induction s generalizing a out with
  | nil =>
    rw [crlf, List.flatMap_nil, List.append_nil]
    exact .done () stable_at (hI out (List.prefix_refl out) (List.prefix_append out _))
  | cons c s ih =>
    -- what has been given after the two bytes of this turn
    generalize hcr : out ++ (if c = 10 then [13] else []) = out₁
    have hout₁ : out <+: out₁ := hcr ▸ List.prefix_append _ _
    have hall : out ++ crlf (c :: s) = out₁ ++ [c] ++ crlf s := by
      rw [crlf_cons, ← hcr, List.append_assoc, List.append_assoc]
    rw [hall] at hI ⊢
    have hI₁ : ∀ d, At out₁ got d → I d := by
      refine hI out₁ hout₁ ?_
      simp
    have hI₂ : ∀ d, At (out₁ ++ [c]) got d → I d :=
      hI _ (hout₁.trans (List.prefix_append _ _)) (List.prefix_append _ _)
    have hcarriage : Outline (pl011 depth) I (fun _ => At out₁ got) (At out got)
        (if c = 10 then uartPutc 13 else pure ()) := by
      have hbefore := hI out (List.prefix_refl out) (hout₁.trans (by simp))
      by_cases hc : c = 10
      · rw [if_pos hc] at hcr ⊢
        subst hcr
        exact uartPutc_outline hdepth hbefore hI₁
      · rw [if_neg hc, List.append_nil] at hcr
        rw [if_neg hc, ← hcr]
        exact .done (Q := fun _ => At out got) () stable_at hbefore
    have hwait : Outline (pl011 depth) I (fun _ => At (out₁ ++ [c]) got) (At (out₁ ++ [c]) got)
        (if (a + 1) % 8 = 0 then mmioWait .fr frBusy else pure ()) := by
      split
      · have hleave : Outline (pl011 depth) I (fun _ => At (out₁ ++ [c]) got)
            (fun d => At (out₁ ++ [c]) got d ∧ d.Idle) (.done ()) :=
          .weaken (fun d hd => hd.1) (.done () stable_at hI₂)
        exact (uartIdle_outline hI₂).bind fun _ => hleave
      · exact .done () stable_at hI₂
    have hrest : Outline (pl011 depth) I (fun _ => At (out₁ ++ [c] ++ crlf s) got)
        (At (out₁ ++ [c]) got) (uartPutsLoop (a + 1) s) := ih fun sofar hsofar hle =>
      hI sofar ((hout₁.trans (List.prefix_append _ _)).trans hsofar) hle
    exact hcarriage.bind fun _ => (uartPutc_outline hdepth hI₁ hI₂).bind fun _ =>
      hwait.bind fun _ => hrest

/-- **`uart_puts`** hands over the string, and waits for it to be sent. -/
theorem uartPuts_outline (hdepth : 0 < depth)
    (hI : ∀ sofar, out <+: sofar → sofar <+: out ++ crlf s → ∀ d, At sofar got d → I d) :
    Outline (pl011 depth) I (fun _ d => At (out ++ crlf s) got d ∧ d.Idle) (At out got)
      (uartPuts a s) :=
  (uartPutsLoop_outline hdepth hI).bind fun _ =>
    uartIdle_outline (hI _ (List.prefix_append _ _) (List.prefix_refl _))

/-- **`uart_getc`** takes the oldest byte. -/
theorem uartGetc_outline (hdepth : 0 < depth) (hbefore : ∀ d, At out got d → I d)
    (hafter : ∀ c d, At out (got ++ [c]) d → I d) :
    Outline (pl011 depth) I (fun c => At out (got ++ [c])) (At out got) uartGetc := by
  refine .poll (N := fun d => At out got d ∧ d.rx ≠ []) stable_at hbefore (fun d hd => hd)
    (fun d hd hclear => ⟨hd, read_rxfe.1 hclear⟩) (clears_rxfe hdepth) ?_
  refine .read (N := fun v => At out (got ++ [(v &&& 0xFF).toUInt8])) stable_input
    (fun d hd => hbefore d hd.1) ?_ fun v => .done (Q := fun c => At out (got ++ [c])) _
    stable_at (hafter _)
  rintro d ⟨⟨⟨hgiven, htaken, hheard⟩, hon, hqueues⟩, hne⟩
  obtain ⟨c, rest, hrx⟩ := List.exists_cons_of_ne_nil hne
  have hread : (pl011 depth).read .dr d =
      (c.toUInt32, { d with rx := rest, taken := d.taken ++ [c] }) := by
    show Pl011.read depth .dr d = _
    rw [Pl011.read, hrx]
  have hbyte : (c.toUInt32 &&& 0xFF).toUInt8 = c := by
    refine UInt8.toNat_inj.1 ?_
    simp [Nat.and_two_pow_sub_one_eq_mod _ 8]
  rw [hread, hbyte, ← htaken]
  refine ⟨⟨hgiven, rfl, ?_⟩, hon, hqueues⟩
  show d.heard = d.taken ++ [c] ++ rest
  rw [hheard, hrx, List.append_assoc]
  rfl

/-- **`uart_init`** turns the device and its queues on, and loses nothing. -/
theorem uartInit_outline (hI : ∀ d, Through out got d → I d) :
    Outline (pl011 depth) I (fun _ => At out got) (Through out got) uartInit := by
  have hstable : ∀ config : (Reg → UInt32) → Prop,
      (pl011 depth).Stable fun d => Through out got d ∧ config d.config := by
    rintro config d e d' ⟨h, hconfig⟩ hown
    obtain ⟨h', hsame, -⟩ := h.own hown
    exact ⟨h', hsame ▸ hconfig⟩
  have hkeep : ∀ (d : Pl011) (config : Reg → UInt32), Through out got d →
      Through out got { d with config := config } := fun d config h => ⟨h.given, h.taken, h.heard⟩
  have hany : (pl011 depth).Stable (Through out got) := by
    intro d e d' h hown
    exact (h.own hown).1
  have hlcrh : ∀ config : Reg → UInt32,
      Function.update config Reg.lcrh
        ((1 : UInt32) <<< 4 ||| (1 : UInt32) <<< 5 ||| (1 : UInt32) <<< 6)
        .lcrh &&& 0x10 ≠ 0 := by
    intro config
    rw [Function.update_self]
    decide
  refine .write hany hI (fun d h => hkeep d _ h) ?_
  refine .write hany hI (fun d h => hkeep d _ h) ?_
  refine .write hany hI (fun d h => hkeep d _ h) ?_
  refine .write (N := fun d => Through out got d ∧ d.config .lcrh &&& 0x10 ≠ 0) hany hI
    (fun d h => ⟨hkeep d _ h, hlcrh d.config⟩) ?_
  refine .write (N := At out got) (hstable fun config => config .lcrh &&& 0x10 ≠ 0)
    (fun d h => hI d h.1) ?_ (.done () stable_at fun d h => hI d h.toThrough)
  rintro d ⟨h, hqueues⟩
  refine ⟨hkeep d _ h, ?_, ?_⟩
  · show Function.update d.config Reg.cr ((1 : UInt32) <<< 0 ||| (1 : UInt32) <<< 8 |||
      (1 : UInt32) <<< 9) .cr = 0x301
    rw [Function.update_self]
    decide
  · show Function.update d.config Reg.cr ((1 : UInt32) <<< 0 ||| (1 : UInt32) <<< 8 |||
      (1 : UInt32) <<< 9) .lcrh &&& 0x10 ≠ 0
    rw [Function.update_of_ne (by decide)]
    exact hqueues

/-! ## Whole runs -/

/-- The device before it was set up: nothing it has heard is missing. -/
theorem Pl011.through_self (h : d.heard = d.taken ++ d.rx) : Through d.given d.taken d :=
  ⟨rfl, rfl, h⟩

/-- When nothing waits, what was given has been sent. -/
theorem Pl011.Idle.sent_eq (h : d.Idle) (hd : At out got d) : d.sent = out := by
  have hgiven := hd.given
  rw [Pl011.given, h.1, h.2] at hgiven
  simpa using hgiven

/-- What was given is always an initial part of the string. -/
theorem uartInit_uartPuts_outline (hdepth : 0 < depth) :
    Outline (pl011 depth) (fun e => out <+: e.given ∧ e.given <+: out ++ crlf s)
      (fun _ e => At (out ++ crlf s) got e ∧ e.Idle) (Through out got)
      (do uartInit; uartPuts a s) := by
  refine (uartInit_outline fun e he => ?_).bind fun _ => uartPuts_outline hdepth ?_
  · rw [he.given]
    exact ⟨List.prefix_refl _, List.prefix_append _ _⟩
  · intro sofar hle hle' e he
    rw [he.given]
    exact ⟨hle, hle'⟩

/-- **`uart_puts` after `uart_init`, in any interleaving with the device.**  At each point what the
device was given is an initial part of the string, in order and nothing twice; at the end all of it
has been sent; and the end can still be reached. -/
theorem uartPuts_run {x : Mmio Reg Unit} {tr : List (Option Pl011Event)} (hdepth : 0 < depth)
    (hd : d.heard = d.taken ++ d.rx)
    (hrun : (Mmio.lts (pl011 depth) Unit).Run (do uartInit; uartPuts a s, d) tr (x, d')) :
    (d.given <+: d'.given ∧ d'.given <+: d.given ++ crlf s) ∧
      (x = .done () → d'.sent = d.given ++ crlf s) ∧
      ∃ e, (Mmio.lts (pl011 depth) Unit).Reachable (x, d') (.done (), e) := by
  obtain ⟨P, hrest, hP⟩ := (uartInit_uartPuts_outline hdepth).run (Pl011.through_self hd) hrun
  refine ⟨hrest.inv hP, fun hx => ?_, ?_⟩
  · obtain ⟨hat, hidle⟩ := hrest.post hP hx
    exact hidle.sent_eq hat
  · obtain ⟨_, e, hreach⟩ := hrest.finishes hP
    exact ⟨e, hreach⟩

/-- The device as it is after a reset. -/
def Pl011.reset : Pl011 where
  tx := []
  shift := none
  rx := []
  sent := []
  heard := []
  taken := []
  config reg := if reg = .cr then 0x300 else 0

theorem uartPuts_run_ok : ∃ tr d', (Mmio.lts (pl011 16) Unit).Run
    (do uartInit; uartPuts 0 (str ['o', 'k', '\n']), Pl011.reset) tr (.done (), d') ∧
      d'.sent = [111, 107, 13, 10] := by
  obtain ⟨r, d', tr, hrun⟩ := (uartInit_uartPuts_outline (a := 0) (s := str ['o', 'k', '\n'])
    (show 0 < 16 by omega)).finishes (Pl011.through_self (d := Pl011.reset) rfl)
  exact ⟨tr, d', hrun, (uartPuts_run (by omega) rfl hrun).2.1 rfl⟩

/-- The value of a hexadecimal digit. -/
def hexValue (c : UInt8) : Nat := if c < 97 then c.toNat - 48 else c.toNat - 87

/-- One of `'0'` to `'9'` and `'a'` to `'f'`. -/
def IsHexDigit (c : UInt8) : Prop := 48 ≤ c ∧ c ≤ 57 ∨ 97 ≤ c ∧ c ≤ 102

instance (c : UInt8) : Decidable (IsHexDigit c) := inferInstanceAs (Decidable (_ ∨ _))

theorem hexValue_hexDigit {x : Nat} (hx : x < 16) : hexValue (hexDigit x) = x := by
  revert x
  decide

theorem isHexDigit_hexDigit {x : Nat} (hx : x < 16) : IsHexDigit (hexDigit x) := by
  revert x
  decide

/-- The digits that the loop of `uart_hex` writes. -/
def hexDigits (n : UInt64) (turns : Nat) : List UInt8 :=
  (List.range turns).reverse.map fun i => hexDigit (((n >>> UInt64.ofNat (4 * i)) &&& 0xF).toNat)

theorem hexDigits_succ (n : UInt64) (turns : Nat) : hexDigits n (turns + 1) =
    hexDigit (((n >>> UInt64.ofNat (4 * turns)) &&& 0xF).toNat) :: hexDigits n turns := by
  simp [hexDigits, List.range_succ]

theorem toNat_nibble {n : UInt64} {i : Nat} (hi : i < 16) :
    ((n >>> UInt64.ofNat (4 * i)) &&& 0xF).toNat = n.toNat / 16 ^ i % 16 := by
  have hshift : 4 * i % 2 ^ 64 % 64 = 4 * i := by omega
  rw [UInt64.toNat_and, UInt64.toNat_shiftRight, UInt64.toNat_ofNat', hshift,
    Nat.shiftRight_eq_div_pow, Nat.pow_mul]
  exact Nat.and_two_pow_sub_one_eq_mod _ 4

theorem isHexDigit_of_mem {n : UInt64} {c : UInt8} (hc : c ∈ hexDigits n 16) : IsHexDigit c := by
  obtain ⟨i, hi, rfl⟩ := List.mem_map.1 hc
  rw [List.mem_reverse, List.mem_range] at hi
  rw [toNat_nibble hi]
  exact isHexDigit_hexDigit (Nat.mod_lt _ (by omega))

/-- **The digits are those of the number.** -/
theorem foldl_hexDigits {n : UInt64} {turns : Nat} (hturns : turns ≤ 16) (start : Nat) :
    (hexDigits n turns).foldl (fun v c => 16 * v + hexValue c) start =
      16 ^ turns * start + n.toNat % 16 ^ turns := by
  induction turns generalizing start with
  | zero => simp [hexDigits, Nat.mod_one]
  | succ turns ih =>
    have hdigit : n.toNat / 16 ^ turns % 16 < 16 := Nat.mod_lt _ (by omega)
    rw [hexDigits_succ, List.foldl_cons, ih (by omega), toNat_nibble (by omega),
      hexValue_hexDigit hdigit, Nat.pow_succ, Nat.mod_mul]
    ring

theorem uartHexLoop_outline {n : UInt64} {turns : Nat} (hdepth : 0 < depth) :
    Outline (pl011 depth) (fun _ => True) (fun _ => At (out ++ hexDigits n turns) got) (At out got)
      (uartHexLoop n turns) := by
  induction turns generalizing out with
  | zero =>
    rw [hexDigits, List.range_zero, List.reverse_nil, List.map_nil, List.append_nil]
    exact .done (Q := fun _ => At out got) () stable_at fun _ _ => trivial
  | succ turns ih =>
    rw [hexDigits_succ, List.append_cons]
    exact (uartPutc_outline hdepth (fun _ _ => trivial) fun _ _ => trivial).bind fun _ => ih

/-- `uart_hex` hands over `0x` and the digits. -/
theorem uartInit_uartHex_outline {n : UInt64} (hdepth : 0 < depth) :
    Outline (pl011 depth) (fun _ => True)
      (fun _ => At (out ++ str ['0', 'x'] ++ hexDigits n 16) got)
      (Through out got) (do uartInit; uartHex a n) := by
  have hliteral : crlf (str ['0', 'x']) = str ['0', 'x'] := by decide
  refine (uartInit_outline fun _ _ => trivial).bind fun _ => ?_
  refine (uartPuts_outline hdepth fun _ _ _ _ _ => trivial).bind fun _ => ?_
  rw [hliteral]
  exact .weaken (fun e he => he.1) (uartHexLoop_outline hdepth)

/-- **`uart_hex` after `uart_init`, in any interleaving with the device**: what it has handed over
at the end is `0x` and sixteen digits, each one of `0` to `9` and `a` to `f`, which are those of
the number. -/
theorem uartHex_run {n : UInt64} {tr : List (Option Pl011Event)} (hdepth : 0 < depth)
    (hd : d.heard = d.taken ++ d.rx)
    (hrun : (Mmio.lts (pl011 depth) Unit).Run (do uartInit; uartHex a n, d) tr (.done (), d')) :
    ∃ digits, d'.given = d.given ++ (str ['0', 'x'] ++ digits) ∧ digits.length = 16 ∧
      (∀ c ∈ digits, IsHexDigit c) ∧ digits.foldl (fun v c => 16 * v + hexValue c) 0 = n.toNat := by
  obtain ⟨-, hpost⟩ := (uartInit_uartHex_outline hdepth).sound (Pl011.through_self hd) hrun
  refine ⟨hexDigits n 16, ?_, by simp [hexDigits], fun c hc => isHexDigit_of_mem hc, ?_⟩
  · rw [(hpost () rfl).given, List.append_assoc]
  · rw [foldl_hexDigits (Nat.le_refl 16), Nat.mul_zero, Nat.zero_add]
    exact Nat.mod_eq_of_lt n.toNat_lt

theorem uartHex_run_reset : ∃ (d' : Pl011) (digits : List UInt8),
    d'.given = str ['0', 'x'] ++ digits ∧
    digits.length = 16 ∧ (∀ c ∈ digits, IsHexDigit c) ∧
      digits.foldl (fun v c => 16 * v + hexValue c) 0 = 0xdeadbeef := by
  obtain ⟨_, d', tr, hrun⟩ := (uartInit_uartHex_outline (a := 0) (n := 0xdeadbeef)
    (show 0 < 16 by omega)).finishes (Pl011.through_self (d := Pl011.reset) rfl)
  exact ⟨d', uartHex_run (by omega) rfl hrun⟩

end Outlines

end OsArm
