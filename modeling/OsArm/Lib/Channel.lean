import OsArm.Lib.Transition

/-!
# Bounded FIFO channels

A family of channels: messages are put into a channel and got out of it in the
order in which they were accepted, and no more than a fixed number wait in one.

* `Channel.lts` — what puts and gets may do; its labels carry the answers.
* `Channel.accepted`, `Channel.received` — what a run has accepted for a channel
  and what has been got out of it; `Channel.run_fifo` says that the first is the
  second followed by what is waiting, `Channel.run_bounded` that the bound holds.
* `Ring.window` — the messages a ring buffer holds; `Ring.window_push` and
  `Ring.window_pop` are its two operations, across wrap-around.
-/

namespace Channel

variable {ι α : Type*} [DecidableEq ι]

/-- What happens to the channels: a message offered to channel `i` is taken or
refused, a get from channel `i` finds its oldest message or nothing, or nothing
happens to any of them. -/
inductive Event (ι α : Type*)
  | put (i : ι) (m : α) (taken : Bool)
  | got (i : ι) (found : Option α)
  | quiet

/-- Channels that hold at most `cap` messages each; the state is what waits. -/
def lts (ι α : Type*) [DecidableEq ι] (cap : Nat) : Lts (ι → List α) (Event ι α) where
  step s e t :=
    match e with
    | .put i m true => (s i).length < cap ∧ t = Function.update s i (s i ++ [m])
    | .put i _ false => cap ≤ (s i).length ∧ t = s
    | .got i (some m) => ∃ rest, s i = m :: rest ∧ t = Function.update s i rest
    | .got i none => s i = [] ∧ t = s
    | .quiet => t = s

/-- The messages taken for channel `i`, in order. -/
def accepted (i : ι) (tr : List (Event ι α)) : List α :=
  tr.filterMap fun e =>
    match e with
    | .put j m true => if j = i then some m else none
    | _ => none

/-- The messages got out of channel `i`, in order. -/
def received (i : ι) (tr : List (Event ι α)) : List α :=
  tr.filterMap fun e =>
    match e with
    | .got j found => if j = i then found else none
    | _ => none

variable {cap : Nat} {s : ι → List α} {tr : List (Event ι α)}

/-- **First in, first out.**  What a channel has accepted is what was got out of
it, in that order, followed by what waits in it. -/
theorem run_fifo (h : (lts ι α cap).Run (fun _ => []) tr s) (i : ι) :
    accepted i tr = received i tr ++ s i := by
  induction h with
  | nil => rfl
  | @snoc tr t u e _ he ih =>
    rw [accepted, received, List.filterMap_append, List.filterMap_append]
    rw [accepted, received] at ih
    rw [ih]
    match e with
    | .put j m true =>
      obtain ⟨-, rfl⟩ := he
      by_cases hj : j = i
      · subst hj
        simp
      · have hi : i ≠ j := fun h => hj h.symm
        simp [hj, hi]
    | .put j m false =>
      obtain ⟨-, rfl⟩ := he
      simp
    | .got j (some m) =>
      obtain ⟨rest, hrest, rfl⟩ := he
      by_cases hj : j = i
      · subst hj
        simp [hrest]
      · have hi : i ≠ j := fun h => hj h.symm
        simp [hj, hi]
    | .got j none =>
      obtain ⟨-, rfl⟩ := he
      simp
    | .quiet =>
      have hu : u = t := he
      simp [hu]

/-- No channel ever holds more than the bound. -/
theorem run_bounded (h : (lts ι α cap).Run (fun _ => []) tr s) (i : ι) : (s i).length ≤ cap := by
  refine h.invariant (P := fun s => ∀ i, (s i).length ≤ cap) ?_ (fun _ => Nat.zero_le _) i
  intro t e u ht he j
  match e with
  | .put i m true =>
    obtain ⟨hlt, rfl⟩ := he
    by_cases hj : j = i
    · subst hj
      simpa using hlt
    · simpa [hj] using ht j
  | .put i m false => exact he.2 ▸ ht j
  | .got i (some m) =>
    obtain ⟨rest, hrest, rfl⟩ := he
    have hi := ht i
    rw [hrest, List.length_cons] at hi
    by_cases hj : j = i
    · subst hj
      simpa using Nat.le_of_succ_le hi
    · simpa [hj] using ht j
  | .got i none => exact he.2 ▸ ht j
  | .quiet =>
    have hu : u = t := he
    exact hu ▸ ht j

end Channel

/-! ## Ring buffers -/

namespace Ring

variable {α : Type*} {slots : Nat → α} {cap head count : Nat}

/-- The `count` entries from `head` on, in an array of `cap` entries that is
used round and round. -/
def window (slots : Nat → α) (cap head count : Nat) : List α :=
  (List.range count).map fun i => slots ((head + i) % cap)

@[simp] theorem length_window : (window slots cap head count).length = count := by simp [window]

/-- Two places less than `cap` behind `head` are different entries. -/
theorem add_mod_ne {i : Nat} (hi : i < count) (hcount : count < cap) :
    (head + i) % cap ≠ (head + count) % cap := by
  intro h
  have hmod : i ≡ count [MOD cap] := Nat.ModEq.add_left_cancel' head h
  have hlt : i < cap := Nat.lt_trans hi hcount
  have heq := Nat.ModEq.eq_of_lt_of_lt hmod hlt hcount
  omega

/-- A write just behind the window, while there is room, appends to it. -/
theorem window_push {x : α} (hcount : count < cap) :
    window (Function.update slots ((head + count) % cap) x) cap head (count + 1) =
      window slots cap head count ++ [x] := by
  rw [window, window, List.range_succ, List.map_append]
  congr 1
  · refine List.map_congr_left ?_
    intro i hi
    rw [Function.update_of_ne (add_mod_ne (List.mem_range.1 hi) hcount)]
  · simp

/-- Moving the start of the window on takes its first entry off. -/
theorem window_pop (hhead : head < cap) :
    window slots cap head (count + 1) =
      slots head :: window slots cap ((head + 1) % cap) count := by
  rw [window, window, List.range_succ_eq_map, List.map_cons, List.map_map]
  congr 1
  · rw [Nat.add_zero, Nat.mod_eq_of_lt hhead]
  · refine List.map_congr_left ?_
    intro i _
    show slots ((head + (i + 1)) % cap) = slots (((head + 1) % cap + i) % cap)
    rw [Nat.mod_add_mod, Nat.add_assoc, Nat.add_comm 1 i]

end Ring
