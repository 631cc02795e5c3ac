import OsArm.Lib.Memory

/-!
# Chains of self-delimiting records

A block of memory that holds variable-length records one behind the other, each
carrying its own length: a directory block, a message log, a TLV list.

* `RecordFormat` — what it means for a record to be stored at an address, with
  the one law everything rests on: a record moves with its bytes.
* `RecordFormat.Chain` — records stored back to back; `chain_append` cuts a
  chain in two, `Chain.move` carries it along a copy.
* `RecordFormat.Chain.remove` — closing the gap a record leaves (everything
  behind it moved down by its length) gives the chain without that record.
-/

/-- Records `ρ` that are stored in memory and know their own length. -/
structure RecordFormat (ρ : Type*) where
  /-- The number of bytes a record takes up. -/
  len : ρ → Nat
  /-- The record is stored at the address. -/
  Stored : ByteMem → Nat → ρ → Prop
  /-- No record is empty. -/
  len_pos : ∀ r, 0 < len r
  /-- Whether a record is stored somewhere depends on its own bytes only. -/
  stored_move : ∀ {m m' : ByteMem} {a b : Nat} {r : ρ}, Stored m a r →
    (∀ i < len r, m' (b + i) = m (a + i)) → Stored m' b r

namespace RecordFormat

variable {ρ : Type*} (F : RecordFormat ρ)

/-- The total length of some records. -/
def span (rs : List ρ) : Nat := (rs.map F.len).sum

@[simp] theorem span_nil : F.span [] = 0 := rfl

@[simp] theorem span_cons (r : ρ) (rs : List ρ) : F.span (r :: rs) = F.len r + F.span rs := by
  simp [span]

@[simp] theorem span_append (rs ts : List ρ) : F.span (rs ++ ts) = F.span rs + F.span ts := by
  simp [span]

/-- There are at most as many records as bytes. -/
theorem length_le_span (rs : List ρ) : rs.length ≤ F.span rs := by
  induction rs with
  | nil => simp
  | cons r rs ih =>
    have := F.len_pos r
    rw [span_cons, List.length_cons]
    omega

/-- The records `rs` are stored back to back from address `a` on. -/
def Chain (m : ByteMem) : Nat → List ρ → Prop
  | _, [] => True
  | a, r :: rs => F.Stored m a r ∧ Chain m (a + F.len r) rs

variable {F} {m m' : ByteMem} {a b : Nat} {r : ρ} {rs ts : List ρ}

/-- A chain can be cut between any two records. -/
theorem chain_append : F.Chain m a (rs ++ ts) ↔ F.Chain m a rs ∧ F.Chain m (a + F.span rs) ts := by
  induction rs generalizing a with
  | nil => simp [Chain]
  | cons r rs ih => rw [List.cons_append, Chain, Chain, ih, span_cons, and_assoc, Nat.add_assoc]

/-- A chain moves with its bytes. -/
theorem Chain.move (h : F.Chain m a rs) (hm : ∀ i < F.span rs, m' (b + i) = m (a + i)) :
    F.Chain m' b rs := by
  induction rs generalizing a b with
  | nil => trivial
  | cons r rs ih =>
    rw [span_cons] at hm
    refine ⟨F.stored_move h.1 fun i hi => hm i (by omega), ih h.2 fun i hi => ?_⟩
    have := hm (F.len r + i) (by omega)
    rwa [← Nat.add_assoc, ← Nat.add_assoc] at this

/-- A chain survives changes outside its bytes. -/
theorem Chain.frame (h : F.Chain m a rs) (hm : ∀ x, a ≤ x → x < a + F.span rs → m' x = m x) :
    F.Chain m' a rs := h.move fun i hi => hm _ (by omega) (by omega)

/-- **Closing a gap.**  Move everything behind a record down by its length: what
is stored is the chain without that record. -/
theorem Chain.remove (h : F.Chain m a (rs ++ r :: ts))
    (hlow : ∀ x, a ≤ x → x < a + F.span rs → m' x = m x)
    (hmove : ∀ i < F.span ts, m' (a + F.span rs + i) = m (a + F.span rs + F.len r + i)) :
    F.Chain m' a (rs ++ ts) := by
  obtain ⟨hpre, -, hpost⟩ := chain_append.1 h
  exact chain_append.2 ⟨hpre.frame hlow, hpost.move hmove⟩

/-- A record of a chain is stored behind the ones before it. -/
theorem Chain.stored (h : F.Chain m a (rs ++ r :: ts)) : F.Stored m (a + F.span rs) r :=
  (chain_append.1 h).2.1

end RecordFormat
