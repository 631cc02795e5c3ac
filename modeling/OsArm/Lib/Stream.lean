import OsArm.Lib.Transition

/-!
# Shared positioned streams

One bounded sequence, read and written through any number of handles that each
keep a position of their own: an open file, a tape, a log with cursors.

* `SharedStream` — the sequence and the positions; `SharedStream.lts` — its
  calls, whose labels carry what the call answered.
* `splice` — a write at a position; `length_splice`, `getElem?_splice` describe it.
* `SharedStream.Bounded` — the sequence stays within the capacity and no position
  lies behind its end; `SharedStream.Bounded.step` says that every call keeps it so.
-/

/-- `xs` with `ys` written over it from position `q` on. -/
def splice {α : Type*} (xs ys : List α) (q : Nat) : List α :=
  xs.take q ++ ys ++ xs.drop (q + ys.length)

/-- A bounded sequence and the positions of the handles on it. -/
structure SharedStream (α : Type*) where
  data : List α
  pos : List Nat

namespace SharedStream

variable {α : Type*}

/-! ## Writing at a position -/

theorem length_splice {xs ys : List α} {q : Nat} (h : q ≤ xs.length) :
    (splice xs ys q).length = max xs.length (q + ys.length) := by
  simp only [splice, List.length_append, List.length_take, List.length_drop]
  omega

/-- What stands where after a write. -/
theorem getElem?_splice {xs ys : List α} {q i : Nat} (h : q ≤ xs.length) :
    (splice xs ys q)[i]? = if q ≤ i ∧ i < q + ys.length then ys[i - q]? else xs[i]? := by
  have hlen : (xs.take q).length = q := by
    rw [List.length_take, Nat.min_eq_left h]
  rw [splice, List.append_assoc]
  by_cases hq : i < q
  · rw [List.getElem?_append_left (by omega), List.getElem?_take_of_lt hq, if_neg (by omega)]
  · rw [List.getElem?_append_right (by omega), hlen]
    by_cases hy : i < q + ys.length
    · rw [List.getElem?_append_left (by omega), if_pos (by omega)]
    · rw [List.getElem?_append_right (by omega), List.getElem?_drop, if_neg (by omega)]
      exact congrArg (xs[·]?) (by omega)

/-! ## The calls -/

/-- A call and its answer: `read h c out` reads through handle `h` with room for
`c` and gets `out`, `wrote h buf n` writes `buf` and `n` are accepted. -/
inductive Event (α : Type*)
  | opened
  | read (h count : Nat) (out : List α)
  | wrote (h : Nat) (buf : List α) (n : Nat)

/-- The stream of capacity `cap`. -/
def lts (α : Type*) (cap : Nat) : Lts (SharedStream α) (Event α) where
  step s e t :=
    match e with
    | .opened => t = { s with pos := s.pos ++ [0] }
    | .read h count out => ∃ q, s.pos[h]? = some q ∧ out = (s.data.drop q).take count ∧
        t = { s with pos := s.pos.set h (q + out.length) }
    | .wrote h buf n => ∃ q, s.pos[h]? = some q ∧ n = min buf.length (cap - q) ∧
        t = { data := splice s.data (buf.take n) q, pos := s.pos.set h (q + n) }

/-! ## The invariant -/

/-- **Bounds.**  The sequence fits and no handle stands behind its end. -/
structure Bounded (cap : Nat) (s : SharedStream α) : Prop where
  length_le : s.data.length ≤ cap
  pos_le : ∀ q ∈ s.pos, q ≤ s.data.length

theorem Bounded.step {cap : Nat} {s t : SharedStream α} {e : Event α} (h : Bounded cap s)
    (hstep : (lts α cap).step s e t) : Bounded cap t := by
  cases e with
  | opened =>
    have ht : t = { s with pos := s.pos ++ [0] } := hstep
    subst ht
    refine ⟨h.length_le, ?_⟩
    intro q hq
    rcases List.mem_append.1 hq with hq | hq
    · exact h.pos_le q hq
    · rw [List.mem_singleton.1 hq]
      exact Nat.zero_le _
  | read i count out =>
    obtain ⟨q, hq, hout, rfl⟩ := hstep
    have hle := h.pos_le q (List.mem_of_getElem? hq)
    refine ⟨h.length_le, ?_⟩
    intro p hp
    rcases List.mem_or_eq_of_mem_set hp with hp | rfl
    · exact h.pos_le p hp
    · rw [hout, List.length_take, List.length_drop]
      dsimp only
      omega
  | wrote i buf n =>
    obtain ⟨q, hq, hn, rfl⟩ := hstep
    have hle := h.pos_le q (List.mem_of_getElem? hq)
    have hcap := h.length_le
    have hlen : (splice s.data (buf.take n) q).length = max s.data.length (q + n) := by
      rw [length_splice hle, List.length_take, Nat.min_eq_left (by omega)]
    refine ⟨?_, ?_⟩
    · dsimp only
      omega
    · intro p hp
      dsimp only at hp ⊢
      rw [hlen]
      rcases List.mem_or_eq_of_mem_set hp with hp | rfl
      · exact Nat.le_trans (h.pos_le p hp) (Nat.le_max_left _ _)
      · exact Nat.le_max_right _ _

end SharedStream
