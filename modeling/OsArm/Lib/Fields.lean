import Mathlib

/-!
# The fields of a list

A field is a longest piece of a list, not empty, all of whose elements have a property; what stands
between two fields separates them.

* `FieldAt` — a field, by its start and its length.
* `nextField`, `nthField` — the first field from a place on and the place behind its separator; the
  fields one after the other.
* `FieldsFrom` — all fields from a place on; `FieldsFrom.nil` and `FieldsFrom.cons` build the list.
* `nthField_complete` — from the start of a list, these are all its fields, each once, from left to
  right, and then there is none any more.
-/

variable {α : Type*} {p : α → Prop} {l : List α} {i n q : Nat}

/-- **A field** of `l`: the `n` elements from `i` on have the property, those at both ends of it do
not. -/
structure FieldAt (p : α → Prop) (l : List α) (i n : Nat) : Prop where
  pos : 0 < n
  le : i + n ≤ l.length
  all : ∀ k, i ≤ k → k < i + n → ∀ x, l[k]? = some x → p x
  before : ∀ x, 0 < i → l[i - 1]? = some x → ¬ p x
  behind : ∀ x, l[i + n]? = some x → ¬ p x

/-- How many elements from `q` on have the property, up to the first that has not. -/
def stretch (p : α → Prop) [DecidablePred p] (l : List α) (q : Nat) : Nat :=
  ((l.drop q).takeWhile fun x => decide (p x)).length

/-- The first field from `q` on, and the place behind its separator. -/
def nextField (p : α → Prop) [DecidablePred p] (l : List α) (q : Nat) : Option (Nat × Nat) × Nat :=
  let i := q + stretch (fun x => ¬ p x) l q
  if i < l.length then (some (i, stretch p l i), min (i + stretch p l i + 1) l.length)
  else (none, l.length)

/-- The fields from `q` on, one after the other. -/
def nthField (p : α → Prop) [DecidablePred p] (l : List α) : Nat → Nat → Option (Nat × Nat)
  | q, 0 => (nextField p l q).1
  | q, k + 1 => nthField p l (nextField p l q).2 k

/-! ## Fields apart from each other -/

/-- Two fields with one start are one. -/
theorem FieldAt.length_unique {n' : Nat} (h : FieldAt p l i n) (h' : FieldAt p l i n') :
    n = n' := by
  have hle : ∀ {n n' : Nat}, FieldAt p l i n → FieldAt p l i n' → n ≤ n' := by
    intro n n' h h'
    by_contra hlt
    have hin : i + n' < l.length := by
      have := h.le
      omega
    have hx := List.getElem?_eq_getElem hin
    exact h'.behind _ hx (h.all _ (by omega) (by omega) _ hx)
  exact Nat.le_antisymm (hle h h') (hle h' h)

/-- No field starts inside or right behind another. -/
theorem FieldAt.start_gt {i' n' : Nat} (h : FieldAt p l i n)
    (h' : FieldAt p l i' n') (hlt : i < i') :
    i + n < i' := by
  have hle := h.le
  have hle' := h'.le
  have hpos' := h'.pos
  by_contra hno
  rcases Nat.lt_or_ge i' (i + n) with hin | hend
  · -- the element in front of the second one belongs to the first
    have hx := List.getElem?_eq_getElem (show i' - 1 < l.length by omega)
    exact h'.before _ (by omega) hx (h.all _ (by omega) (by omega) _ hx)
  · have hx := List.getElem?_eq_getElem (show i + n < l.length by omega)
    exact h.behind _ hx (h'.all _ (by omega) (by omega) _ hx)

/-! ## From field to field -/

section Scan

variable [DecidablePred p]

/-- A stretch is as long as it can be. -/
theorem stretch_spec (hq : q ≤ l.length) : q + stretch p l q ≤ l.length ∧
    (∀ k, q ≤ k → k < q + stretch p l q → ∀ x, l[k]? = some x → p x) ∧
    ∀ x, l[q + stretch p l q]? = some x → ¬ p x := by
  have happ := List.takeWhile_append_dropWhile (p := fun x => decide (p x)) (l := l.drop q)
  have hall : ∀ x ∈ (l.drop q).takeWhile (fun x => decide (p x)), p x := by
    intro x hx
    have hpx := List.mem_takeWhile_imp hx
    exact of_decide_eq_true hpx
  have hnot : ∀ x, ((l.drop q).dropWhile fun x => decide (p x)).head? = some x → ¬ p x := by
    intro x hx
    have hhead := List.head?_dropWhile_not (fun x => decide (p x)) (l.drop q)
    rw [hx] at hhead
    exact of_decide_eq_false (by simpa using hhead)
  unfold stretch
  generalize (l.drop q).takeWhile (fun x => decide (p x)) = w at happ hall
  generalize (l.drop q).dropWhile (fun x => decide (p x)) = r at happ hnot
  have hlen := congrArg List.length happ
  rw [List.length_append, List.length_drop] at hlen
  refine ⟨by omega, ?_, ?_⟩
  · intro k hle hlt x hx
    obtain ⟨k, rfl⟩ := Nat.exists_eq_add_of_le hle
    rw [← List.getElem?_drop, ← happ, List.getElem?_append_left (by omega)] at hx
    exact hall x (List.mem_of_getElem? hx)
  · intro x hx
    rw [← List.getElem?_drop, ← happ, List.getElem?_append_right (Nat.le_refl _), Nat.sub_self,
      ← List.head?_eq_getElem?] at hx
    exact hnot x hx

theorem take_stretch (p : α → Prop) [DecidablePred p] (l : List α) (q : Nat) :
    (l.drop q).take (stretch p l q) = (l.drop q).takeWhile fun x => decide (p x) := by
  have happ := List.takeWhile_append_dropWhile (p := fun x => decide (p x)) (l := l.drop q)
  have htake := congrArg (List.take (stretch p l q)) happ
  rw [← htake]
  exact List.take_left

theorem drop_stretch (p : α → Prop) [DecidablePred p] (l : List α) (q : Nat) :
    l.drop (q + stretch p l q) = (l.drop q).dropWhile fun x => decide (p x) := by
  have happ := List.takeWhile_append_dropWhile (p := fun x => decide (p x)) (l := l.drop q)
  have hdrop := congrArg (List.drop (stretch p l q)) happ
  rw [← List.drop_drop, ← hdrop]
  exact List.drop_left

/-- Where the next field lies, and where its separator ends. -/
theorem nextField_bounds (hq : q ≤ l.length) :
    match (nextField p l q).1 with
    | none => (nextField p l q).2 = l.length
    | some (i, n) => q ≤ i ∧ i + n ≤ l.length ∧ (nextField p l q).2 = min (i + n + 1) l.length := by
  have hle := (stretch_spec (p := fun x => ¬ p x) hq).1
  unfold nextField
  by_cases hlt : q + stretch (fun x => ¬ p x) l q < l.length
  · simp only [if_pos hlt]
    exact ⟨Nat.le_add_right _ _, (stretch_spec hle).1, trivial⟩
  · simp only [if_neg hlt]

/-- **The next field** is a field, and there is none in front of it; without one, no field starts
from `q` on. -/
theorem nextField_spec (hq : q ≤ l.length) (hbefore : ∀ x, 0 < q → l[q - 1]? = some x → ¬ p x) :
    match (nextField p l q).1 with
    | none => ∀ i n, q ≤ i → ¬ FieldAt p l i n
    | some (i, n) => FieldAt p l i n ∧ ∀ i' n', q ≤ i' → FieldAt p l i' n' → i ≤ i' := by
  obtain ⟨hle, hskip, hstop⟩ := stretch_spec (p := fun x => ¬ p x) hq
  unfold nextField
  generalize stretch (fun x => ¬ p x) l q = t at hle hskip hstop
  -- a field from `q` on does not start where the separators are
  have hfirst : ∀ i' n', q ≤ i' → FieldAt p l i' n' → q + t ≤ i' := by
    intro i' n' hqi h
    by_contra hlt
    have hin : i' < l.length := by omega
    have hx := List.getElem?_eq_getElem hin
    exact hskip i' hqi (by omega) _ hx (h.all i' (Nat.le_refl _) (by have := h.pos; omega) _ hx)
  by_cases hlt : q + t < l.length
  · simp only [if_pos hlt]
    obtain ⟨hle', hall, hbehind⟩ := stretch_spec (p := p) hle
    have hx := List.getElem?_eq_getElem hlt
    have hpx := not_not.1 (hstop _ hx)
    refine ⟨⟨?_, hle', hall, ?_, hbehind⟩, hfirst⟩
    · by_contra hzero
      rw [show stretch p l (q + t) = 0 by omega] at hbehind
      exact hbehind _ hx hpx
    · intro x hpos hx'
      rcases Nat.eq_zero_or_pos t with rfl | ht
      · exact hbefore x hpos hx'
      · exact hskip _ (by omega) (by omega) x hx'
  · simp only [if_neg hlt]
    intro i' n' hqi h
    have hge := hfirst i' n' hqi h
    have hpos := h.pos
    have hend := h.le
    omega

/-! ## All fields -/

/-- **The fields from `q` on**, from left to right, and that they are found one after the other. -/
structure FieldsFrom (p : α → Prop) [DecidablePred p] (l : List α) (q : Nat)
    (fs : List (Nat × Nat)) :
    Prop where
  mem : ∀ i n, (i, n) ∈ fs ↔ q ≤ i ∧ FieldAt p l i n
  sorted : fs.Pairwise fun f g => f.1 + f.2 < g.1
  nth : ∀ k, nthField p l q k = fs[k]?

/-- At the end of the list none is found. -/
theorem nextField_length : nextField p l l.length = (none, l.length) := by
  unfold nextField
  exact if_neg (by omega)

theorem nthField_length (k : Nat) : nthField p l l.length k = none := by
  induction k with
  | zero => rw [nthField, nextField_length]
  | succ k ih =>
    rw [nthField, nextField_length]
    exact ih

/-- Where no field is found, none is left. -/
theorem FieldsFrom.nil (hno : ∀ i n, q ≤ i → ¬ FieldAt p l i n)
    (hnext : nextField p l q = (none, l.length)) : FieldsFrom p l q [] := by
  refine ⟨fun i n => ?_, .nil, fun k => ?_⟩
  · exact ⟨fun h => absurd h List.not_mem_nil, fun h => absurd h.2 (hno i n h.1)⟩
  · cases k with
    | zero => rw [nthField, hnext, List.getElem?_nil]
    | succ k => rw [nthField, hnext, nthField_length, List.getElem?_nil]

theorem FieldsFrom.length : FieldsFrom p l l.length [] := by
  refine .nil (fun i n hle h => ?_) nextField_length
  have hpos := h.pos
  have hend := h.le
  omega

/-- One field, and behind it the others. -/
theorem FieldsFrom.cons {fs : List (Nat × Nat)} {q' : Nat} (h : FieldsFrom p l q' fs)
    (hnext : nextField p l q = (some (i, n), q')) (hqi : q ≤ i) (hfield : FieldAt p l i n)
    (hfirst : ∀ i' n', q ≤ i' → FieldAt p l i' n' → i ≤ i') (hq' : q' = min (i + n + 1) l.length) :
    FieldsFrom p l q ((i, n) :: fs) := by
  have hpos := hfield.pos
  have hend := hfield.le
  refine ⟨fun i' n' => ?_, ?_, fun k => ?_⟩
  · rw [List.mem_cons, h.mem]
    constructor
    · rintro (heq | ⟨hle, hfield'⟩)
      · obtain ⟨rfl, rfl⟩ := Prod.mk.inj heq
        exact ⟨hqi, hfield⟩
      · exact ⟨by omega, hfield'⟩
    · rintro ⟨hle, hfield'⟩
      rcases Nat.eq_or_lt_of_le (hfirst i' n' hle hfield') with rfl | hlt
      · exact Or.inl (by rw [hfield'.length_unique hfield])
      · have hgt := hfield.start_gt hfield' hlt
        exact Or.inr ⟨by omega, hfield'⟩
  · refine List.pairwise_cons.2 ⟨?_, h.sorted⟩
    rintro ⟨i', n'⟩ hin
    obtain ⟨hle, hfield'⟩ := (h.mem i' n').1 hin
    have hpos' := hfield'.pos
    have hend' := hfield'.le
    exact hfield.start_gt hfield' (by omega)
  · cases k with
    | zero => rw [nthField, hnext, List.getElem?_cons_zero]
    | succ k => rw [nthField, hnext, List.getElem?_cons_succ, h.nth]

/-- From a place behind a separator on, all fields are found. -/
theorem exists_fieldsFrom (hq : q ≤ l.length) (hbefore : ∀ x, 0 < q → l[q - 1]? = some x → ¬ p x) :
    ∃ fs, FieldsFrom p l q fs := by
  induction hm : l.length - q using Nat.strong_induction_on generalizing q with
  | _ m ih =>
    have hspec := nextField_spec hq hbefore
    have hbounds := nextField_bounds (p := p) hq
    rcases hnext : nextField p l q with ⟨_ | ⟨i, n⟩, q'⟩
    · rw [hnext] at hspec hbounds
      have hend : q' = l.length := hbounds
      exact ⟨[], .nil hspec (by rw [hnext, hend])⟩
    · rw [hnext] at hspec hbounds
      obtain ⟨hfield, hfirst⟩ := hspec
      obtain ⟨hqi, hend, hq'⟩ := hbounds
      dsimp only at hq'
      have hpos := hfield.pos
      by_cases hlast : i + n < l.length
      · -- the search goes on behind the separator
        have hbehind : ∀ x, 0 < q' → l[q' - 1]? = some x → ¬ p x := by
          intro x _ hx
          rw [show q' - 1 = i + n by omega] at hx
          exact hfield.behind x hx
        obtain ⟨fs, hfs⟩ := ih (l.length - q') (by omega) (by omega) hbehind rfl
        exact ⟨_, hfs.cons hnext hqi hfield hfirst hq'⟩
      · have hempty : FieldsFrom p l q' [] := by
          rw [show q' = l.length by omega]
          exact .length
        exact ⟨_, hempty.cons hnext hqi hfield hfirst hq'⟩

/-- **All fields**, from left to right, and none after the last. -/
theorem nthField_complete (p : α → Prop) [DecidablePred p] (l : List α) :
    ∃ fs : List (Nat × Nat), (∀ i n, (i, n) ∈ fs ↔ FieldAt p l i n) ∧
      fs.Pairwise (fun f g => f.1 + f.2 < g.1) ∧ ∀ k, nthField p l 0 k = fs[k]? := by
  obtain ⟨fs, hfs⟩ := exists_fieldsFrom (p := p) (l := l) (Nat.zero_le _)
    fun x hpos => absurd hpos (Nat.lt_irrefl 0)
  refine ⟨fs, fun i n => ?_, hfs.sorted, hfs.nth⟩
  rw [hfs.mem]
  exact ⟨fun h => h.2, fun h => ⟨Nat.zero_le i, h⟩⟩

end Scan
