import OsArm.Lib.Memory

/-!
# Code over byte memory

A piece of code reads and writes single bytes of one memory, and it is recorded which ones.

* `Code` — such a piece of code, as a monad; `Code.load`, `Code.store`, and `Code.stuck` for a loop
  that has used up its turns.
* `Code.Ends` — the code ends, with this value and this memory, and touches bytes with a property
  only; `Ends.pure`, `Ends.bind`, `Ends.load`, `Ends.store` follow the code, and `Ends.bind_none` a
  loop that never ends.
-/

/-- Code over byte memory: the value, the memory after it and the addresses of the bytes that were
touched, in order; `none` where a loop would go around more often than it may. -/
def Code (α : Type) := ByteMem → Option (α × ByteMem × List Nat)

namespace Code

variable {α β : Type}

instance : Monad Code where
  pure r := fun m => some (r, m, [])
  bind x f := fun m =>
    match x m with
    | none => none
    | some (r, m', touched) =>
      match f r m' with
      | none => none
      | some (r', m'', touched') => some (r', m'', touched ++ touched')

/-- Read a byte. -/
def load (a : Nat) : Code UInt8 := fun m => some (m a, m, [a])

/-- Write a byte. -/
def store (a : Nat) (v : UInt8) : Code Unit := fun m => some ((), m.set a v, [a])

/-- No turn is left. -/
def stuck : Code α := fun _ => none

/-- **The code ends** in `m'` with the value `r`, and all bytes it has touched are in `S`. -/
def Ends (x : Code α) (m : ByteMem) (S : Nat → Prop) (r : α) (m' : ByteMem) : Prop :=
  ∃ touched, x m = some (r, m', touched) ∧ ∀ a ∈ touched, S a

theorem bind_left_none {x : Code α} {f : α → Code β} {m : ByteMem} (hx : x m = none) :
    (x >>= f) m = none := by
  change (match x m with
    | none => none
    | some (r, m', touched) => match f r m' with
      | none => none
      | some (r', m'', touched') => some (r', m'', touched ++ touched')) = _
  rw [hx]

namespace Ends

variable {x : Code α} {f : α → Code β} {m m' m'' : ByteMem} {S : Nat → Prop} {r : α} {r' : β}

theorem pure (r : α) : Ends (Pure.pure r) m S r m := ⟨[], rfl, fun _ ha => by cases ha⟩

/-- One piece of code after the other. -/
theorem bind (hx : Ends x m S r m') (hf : Ends (f r) m' S r' m'') : Ends (x >>= f) m S r' m'' := by
  obtain ⟨touched, hrun, hin⟩ := hx
  obtain ⟨touched', hrun', hin'⟩ := hf
  refine ⟨touched ++ touched', ?_, List.forall_mem_append.2 ⟨hin, hin'⟩⟩
  change (match x m with
    | none => none
    | some (r, m', touched) => match f r m' with
      | none => none
      | some (r', m'', touched') => some (r', m'', touched ++ touched')) = _
  rw [hrun]
  dsimp only
  rw [hrun']

/-- A piece of code that does not end after one that does. -/
theorem bind_none (hx : Ends x m S r m') (hf : f r m' = none) : (x >>= f) m = none := by
  obtain ⟨touched, hrun, -⟩ := hx
  change (match x m with
    | none => none
    | some (r, m', touched) => match f r m' with
      | none => none
      | some (r', m'', touched') => some (r', m'', touched ++ touched')) = _
  rw [hrun]
  dsimp only
  rw [hf]

theorem load {a : Nat} (ha : S a) : Ends (Code.load a) m S (m a) m :=
  ⟨[a], rfl, fun b hb => by rwa [List.mem_singleton.1 hb]⟩

theorem store {a : Nat} {v : UInt8} (ha : S a) : Ends (Code.store a v) m S () (m.set a v) :=
  ⟨[a], rfl, fun b hb => by rwa [List.mem_singleton.1 hb]⟩

end Ends

end Code
