import Mathlib

/-!
# Stacks of named entries

A new entry goes on top, and a name refers to the topmost entry that has it: scopes,
bindings, mounts.  Removing a name removes that entry only.

* `Shadow.Between` — a stack is another one with an entry put into it, below none of the same
  name; `Between.apply` keeps this through operations on other names.
* `Shadow.replay_undo` — what is put on top and removed again, whatever happens to other names
  in between, might as well never have been there.
* `Shadow.replay_has` — operations on other names do not change whether a name is there.
-/

namespace Shadow

variable {α κ : Type*}

/-- An operation on a stack. -/
inductive Op (α κ : Type*)
  | push (x : α)
  | remove (k : κ)

section Operations

variable (key : α → κ)

/-- The name that it is about. -/
def Op.target : Op α κ → κ
  | push x => key x
  | remove k => k

/-- There is an entry with this name. -/
def Has (l : List α) (k : κ) : Prop := ∃ a ∈ l, key a = k

/-- `l` is `l'` with `x` put into it, and no entry above it has its name. -/
def Between (x : α) (l l' : List α) : Prop :=
  ∃ as bs, l = as ++ x :: bs ∧ l' = as ++ bs ∧ ∀ a ∈ as, key a ≠ key x

variable [DecidableEq κ]

/-- The entries with the name `k`. -/
def named (k : κ) (a : α) : Bool := key a = k

/-- The stack after an operation. -/
def Op.apply : Op α κ → List α → List α
  | push x, l => x :: l
  | remove k, l => l.eraseP (named key k)

/-- The stack after several operations. -/
def replay : List (Op α κ) → List α → List α
  | [], l => l
  | op :: ops, l => replay ops (op.apply key l)

end Operations

variable {key : α → κ} {x : α} {l l' : List α} {ops : List (Op α κ)} {op : Op α κ}
  {k : κ}

/-- On top there is nothing above. -/
theorem Between.top : Between key x (x :: l) l :=
  ⟨[], l, rfl, rfl, fun _ h => absurd h List.not_mem_nil⟩

variable [DecidableEq κ]

theorem named_iff : named key k x = true ↔ key x = k := decide_eq_true_iff

theorem replay_append {ops' : List (Op α κ)} :
    replay key (ops ++ ops') l = replay key ops' (replay key ops l) := by
  induction ops generalizing l with
  | nil => rfl
  | cons op ops ih => exact ih

/-- **Operations on other names** do not touch the entry. -/
theorem Between.apply (h : Between key x l l') (hop : op.target key ≠ key x) :
    Between key x (op.apply key l) (op.apply key l') := by
  obtain ⟨as, bs, rfl, rfl, has⟩ := h
  cases op with
  | push y =>
    refine ⟨y :: as, bs, rfl, rfl, ?_⟩
    intro a ha
    rcases List.mem_cons.1 ha with rfl | ha
    · exact hop
    · exact has a ha
  | remove k =>
    have hx : ¬ named key k x = true := fun h => hop (named_iff.1 h).symm
    by_cases hmem : ∃ a ∈ as, named key k a = true
    · obtain ⟨a, ha, hk⟩ := hmem
      refine ⟨as.eraseP _, bs, List.eraseP_append_left hk _ ha, List.eraseP_append_left hk _ ha,
        fun b hb => has b (List.mem_of_mem_eraseP hb)⟩
    · have hnone : ∀ b ∈ as, ¬ named key k b = true := fun b hb hk => hmem ⟨b, hb, hk⟩
      refine ⟨as, bs.eraseP _, ?_, List.eraseP_append_right _ hnone, has⟩
      rw [Op.apply, List.eraseP_append_right _ hnone, List.eraseP_cons_of_neg hx]

theorem Between.replay (h : Between key x l l') (hops : ∀ op ∈ ops, op.target key ≠ key x) :
    Between key x (replay key ops l) (replay key ops l') := by
  induction ops generalizing l l' with
  | nil => exact h
  | cons op ops ih =>
    exact ih (h.apply (hops op List.mem_cons_self))
      fun op' hop' => hops op' (List.mem_cons_of_mem _ hop')

/-- Removing the name takes the entry out again. -/
theorem Between.remove (h : Between key x l l') : (Op.remove (key x)).apply key l = l' := by
  obtain ⟨as, bs, rfl, rfl, has⟩ := h
  rw [Op.apply, List.eraseP_append_right _ fun a ha h => has a ha (named_iff.1 h),
    List.eraseP_cons_of_pos (named_iff.2 rfl)]

/-- **Undoing a push**: the stack is as if there had been no such entry. -/
theorem replay_undo (hops : ∀ op ∈ ops, op.target key ≠ key x) :
    (Op.remove (key x)).apply key (replay key ops (x :: l)) = replay key ops l :=
  (Between.top.replay hops).remove

/-- An operation on another name does not change whether a name is there. -/
theorem has_apply (hop : op.target key ≠ k) : Has key (op.apply key l) k ↔ Has key l k := by
  cases op with
  | push y =>
    refine ⟨fun ⟨a, ha, hk⟩ => ?_, fun ⟨a, ha, hk⟩ => ⟨a, List.mem_cons_of_mem _ ha, hk⟩⟩
    rcases List.mem_cons.1 ha with rfl | ha
    · exact absurd hk hop
    · exact ⟨a, ha, hk⟩
  | remove k' =>
    refine ⟨fun ⟨a, ha, hk⟩ => ⟨a, List.mem_of_mem_eraseP ha, hk⟩, fun ⟨a, ha, hk⟩ => ⟨a, ?_, hk⟩⟩
    have hne : ¬ named key k' a = true := fun h => hop ((named_iff.1 h).symm.trans hk)
    exact (List.mem_eraseP_of_neg hne).2 ha

theorem replay_has (hops : ∀ op ∈ ops, op.target key ≠ k) :
    Has key (replay key ops l) k ↔ Has key l k := by
  induction ops generalizing l with
  | nil => exact Iff.rfl
  | cons op ops ih =>
    rw [replay, ih fun op' hop' => hops op' (List.mem_cons_of_mem _ hop'),
      has_apply (hops op List.mem_cons_self)]

end Shadow
