import Mathlib

/-!
# Singly linked lists through a link function

Nodes that each name the next one, as in any intrusive list: a free list, a
process list, a chain of buckets.

* `Linked` — following the links from a start node visits exactly these nodes
  and ends; `Linked.push` adds one in front and `Linked.congr` is the frame rule.
* `Linked.unique`, `Linked.nodup` — a list that ends is determined by its start
  and visits no node twice: it is acyclic.
* `Linked.unlink` — storing the link of a node into the one before it removes it.
* `findFrom` — the search loop over the links, with the number of links it may
  follow; `Linked.findFrom_eq` says that on a list that ends it is `List.find?`.
* `findPrevFrom` — the same with a second pointer to the node before;
  `Linked.findPrevFrom_eq` cuts the list at what it finds.
-/

variable {ι : Type*}

/-- Following `next` from `start` visits the nodes `xs` in order and ends. -/
def Linked (next : ι → Option ι) : Option ι → List ι → Prop
  | start, [] => start = none
  | start, x :: xs => start = some x ∧ Linked next (next x) xs

namespace Linked

variable {next next' : ι → Option ι} {start : Option ι} {x : ι} {xs ys : List ι}

/-- A new first node that links to the old one. -/
theorem push (h : Linked next start xs) (hx : next x = start) :
    Linked next (some x) (x :: xs) := by
  refine ⟨rfl, ?_⟩
  rwa [hx]

/-- Links of other nodes do not matter. -/
theorem congr (h : Linked next start xs) (hnext : ∀ y ∈ xs, next' y = next y) :
    Linked next' start xs := by
  induction xs generalizing start with
  | nil => exact h
  | cons y ys ih =>
    refine ⟨h.1, ?_⟩
    rw [hnext y (by simp)]
    exact ih h.2 fun z hz => hnext z (by simp [hz])

/-- The start determines the list. -/
theorem unique (h : Linked next start xs) (h' : Linked next start ys) : xs = ys := by
  induction xs generalizing start ys with
  | nil =>
    cases ys with
    | nil => rfl
    | cons y ys =>
      have hnone : start = none := h
      simp [hnone, Linked] at h'
  | cons x xs ih =>
    obtain ⟨rfl, hxs⟩ := h
    cases ys with
    | nil => cases h'
    | cons y ys =>
      obtain ⟨hy, hys⟩ := h'
      cases hy
      rw [ih hxs hys]

/-- A list can be entered at any of its nodes. -/
theorem suffix {as : List ι} (h : Linked next start (as ++ x :: xs)) : Linked next (next x) xs := by
  induction as generalizing start with
  | nil => exact h.2
  | cons a as ih => exact ih h.2

/-- **A list that ends is acyclic.** -/
theorem nodup (h : Linked next start xs) : xs.Nodup := by
  induction xs generalizing start with
  | nil => exact List.nodup_nil
  | cons x xs ih =>
    refine List.nodup_cons.2 ⟨?_, ih h.2⟩
    intro hx
    obtain ⟨as, bs, rfl⟩ := List.append_of_mem hx
    have hlen := congrArg List.length (unique h.2 (suffix h.2))
    simp at hlen
    omega

/-- **Removing a node**: the one before it gets its link. -/
theorem unlink [DecidableEq ι] {p : ι} {as : List ι} (h : Linked next start (as ++ p :: x :: xs)) :
    Linked (Function.update next p (next x)) start (as ++ p :: xs) := by
  have hnodup := h.nodup
  induction as generalizing start with
  | nil =>
    obtain ⟨hp, hx, hrest⟩ := h
    have hp' : p ∉ xs := fun hmem => (List.nodup_cons.1 hnodup).1 (List.mem_cons_of_mem _ hmem)
    refine ⟨hp, ?_⟩
    rw [Function.update_self]
    refine hrest.congr fun y hy => Function.update_of_ne ?_ _ _
    rintro rfl
    exact hp' hy
  | cons a as ih =>
    rw [List.cons_append] at hnodup h
    obtain ⟨ha, hrest⟩ := h
    have hne : a ≠ p := by
      rintro rfl
      exact (List.nodup_cons.1 hnodup).1 (List.mem_append_right _ List.mem_cons_self)
    refine ⟨ha, ?_⟩
    rw [Function.update_of_ne hne]
    exact ih hrest (List.nodup_cons.1 hnodup).2

end Linked

/-! ## Searching -/

/-- The loop that follows the links to the first node with `p`: `some none` when
the list ends before, `none` when it is still going after `fuel` nodes. -/
def findFrom (next : ι → Option ι) (p : ι → Bool) : Nat → Option ι → Option (Option ι)
  | _, none => some none
  | 0, some _ => none
  | fuel + 1, some x => if p x then some (some x) else findFrom next p fuel (next x)

/-- On a list that ends, the loop ends and finds the first node with `p`. -/
theorem Linked.findFrom_eq {next : ι → Option ι} {start : Option ι} {xs : List ι} {p : ι → Bool}
    {fuel : Nat} (h : Linked next start xs) (hfuel : xs.length ≤ fuel) :
    findFrom next p fuel start = some (xs.find? p) := by
  induction xs generalizing start fuel with
  | nil =>
    have hnone : start = none := h
    rw [hnone]
    cases fuel <;> rfl
  | cons x xs ih =>
    obtain ⟨rfl, hxs⟩ := h
    cases fuel with
    | zero => simp at hfuel
    | succ fuel =>
      rw [findFrom, List.find?_cons]
      cases p x with
      | true => rfl
      | false => exact ih hxs (by simpa using hfuel)

/-- The same loop with a second pointer, to the node before: it ends with both. -/
def findPrevFrom (next : ι → Option ι) (p : ι → Bool) :
    Nat → Option ι → Option ι → Option (Option (Option ι × ι))
  | _, _, none => some none
  | 0, _, some _ => none
  | fuel + 1, prev, some x =>
    if p x then some (some (prev, x)) else findPrevFrom next p fuel (some x) (next x)

/-- On a list that ends, the loop ends: without a node with `p`, or at the first such node `x`,
with the last of the nodes `as` before it. -/
theorem Linked.findPrevFrom_eq {next : ι → Option ι} {start : Option ι} {xs : List ι}
    {fuel : Nat} (h : Linked next start xs) (hfuel : xs.length ≤ fuel) (p : ι → Bool)
    (prev : Option ι) :
    (findPrevFrom next p fuel prev start = some none ∧ ∀ x ∈ xs, p x = false) ∨
      ∃ as x bs, xs = as ++ x :: bs ∧ (∀ a ∈ as, p a = false) ∧ p x = true ∧
        findPrevFrom next p fuel prev start = some (some (as.getLast?.or prev, x)) := by
  induction xs generalizing start prev fuel with
  | nil =>
    have hnone : start = none := h
    rw [hnone]
    left
    cases fuel <;> simp [findPrevFrom]
  | cons x xs ih =>
    obtain ⟨rfl, hxs⟩ := h
    cases fuel with
    | zero => simp at hfuel
    | succ fuel =>
      rw [findPrevFrom]
      cases hx : p x with
      | true => exact Or.inr ⟨[], x, xs, rfl, by simp, hx, by simp⟩
      | false =>
        rcases ih hxs (by simpa using hfuel) (some x) with
          ⟨hloop, hnone⟩ | ⟨as, y, bs, rfl, has, hy, hloop⟩
        · left
          simpa [hloop, hx] using hnone
        · right
          refine ⟨x :: as, y, bs, rfl, ?_, hy, ?_⟩
          · simpa [hx] using has
          · rw [if_neg (by simp), hloop]
            cases as with
            | nil => simp
            | cons a as => simp [List.getLast?_cons]
