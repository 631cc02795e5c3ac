import OsArm.Lib.Stream

/-!
# Stores of files behind descriptors

A fixed number of slots holds files; a slot in use has a name, and a file is read and written
through descriptors with a position each.  Two specifications have the same calls, with their
answers as labels.

* `FileStore` — the slots show.  A descriptor refers to a slot, so after the removal of its file it
  goes on with whatever the slot holds; the first slot with the name is the one that is found.
* `FileMap` — files by name, as a client would have it.
* `FileStore.Careful` — no name is given twice, and no file is removed while it is open.
* `FileStore.refines_map` — a careful run of a store is a run of the map.
-/

/-- What a store has room for: files, descriptors ever given, and elements in a file. -/
structure FileLimits where
  slots : Nat
  fds : Nat
  size : Nat

/-- A call and its answer, `none` for a failure. -/
inductive FileEvent (P α : Type*)
  | create (path : P) (fd : Option Nat)
  | openPath (path : P) (fd : Option Nat)
  | unlink (path : P) (found : Bool)
  | read (fd : Int) (count : Nat) (out : Option (List α))
  | write (fd : Int) (buf : List α) (n : Option Nat)
  | close (fd : Int) (found : Bool)

/-- The names of the slots in use, what is in the slots, slot and position of each open
descriptor, the next descriptor to be given, and for how many more there is memory. -/
structure FileStore (P α : Type*) where
  name : Nat → Option P
  data : Nat → List α
  fds : Int → Option (Nat × Nat)
  next : Nat
  room : Nat

/-- The files, name and position of each open descriptor, and as before. -/
structure FileMap (P α : Type*) where
  file : P → Option (List α)
  fds : Int → Option (P × Nat)
  next : Nat
  room : Nat

/-! ## The store -/

namespace FileStore

variable {P α : Type*} {L : FileLimits} {s t : FileStore P α} {i : Nat} {p : P}

/-- Nothing is in use. -/
def init (P α : Type*) (room : Nat) : FileStore P α where
  name := fun _ => none
  data := fun _ => []
  fds := fun _ => none
  next := 0
  room := room

/-- The first slot with a property. -/
def First (L : FileLimits) (C : Nat → Prop) (i : Nat) : Prop := i < L.slots ∧ C i ∧ ∀ k < i, ¬ C k

/-- A descriptor on slot `i`, if there is one left. -/
def grant (L : FileLimits) (s : FileStore P α) (i : Nat) : Option Nat × FileStore P α :=
  if s.next < L.fds then
    (some s.next, { s with fds := Function.update s.fds s.next (some (i, 0)), next := s.next + 1 })
  else (none, s)

/-- A slot is given a name, or loses it; it is empty afterwards. -/
def rename (s : FileStore P α) (i : Nat) (p : Option P) : FileStore P α :=
  { s with name := Function.update s.name i p, data := Function.update s.data i [] }

section Rename

variable {q : Option P} {k : Nat}

@[simp] theorem rename_name_self : (s.rename i q).name i = q := Function.update_self _ _ _

@[simp] theorem rename_data_self : (s.rename i q).data i = [] := Function.update_self _ _ _

theorem rename_name_of_ne (hk : k ≠ i) : (s.rename i q).name k = s.name k :=
  Function.update_of_ne hk _ _

theorem rename_data_of_ne (hk : k ≠ i) : (s.rename i q).data k = s.data k :=
  Function.update_of_ne hk _ _

end Rename

/-- The calls.  A write behind the end of the data leaves a gap, which holds anything. -/
inductive Step (L : FileLimits) (s : FileStore P α) : FileEvent P α → FileStore P α → Prop
  | createFull {p : P} : (∀ k < L.slots, s.name k ≠ none) → Step L s (.create p none) s
  | createStarved {p : P} {i : Nat} : First L (fun k => s.name k = none) i → s.room = 0 →
      Step L s (.create p none) (s.rename i none)
  | create {p : P} {i room : Nat} : First L (fun k => s.name k = none) i → s.room = room + 1 →
      Step L s (.create p (grant L ({ s with room := room }.rename i (some p)) i).1)
        (grant L ({ s with room := room }.rename i (some p)) i).2
  | openNone {p : P} : (∀ k < L.slots, s.name k ≠ some p) → Step L s (.openPath p none) s
  | openStarved {p : P} {i : Nat} : First L (fun k => s.name k = some p) i → s.room = 0 →
      Step L s (.openPath p none) s
  | openPath {p : P} {i room : Nat} : First L (fun k => s.name k = some p) i → s.room = room + 1 →
      Step L s (.openPath p (grant L { s with room := room } i).1)
        (grant L { s with room := room } i).2
  | unlinkNone {p : P} : (∀ k < L.slots, s.name k ≠ some p) → Step L s (.unlink p false) s
  | unlink {p : P} {i : Nat} : First L (fun k => s.name k = some p) i →
      Step L s (.unlink p true) (s.rename i none)
  | readClosed {fd : Int} {count : Nat} : s.fds fd = none → Step L s (.read fd count none) s
  | read {fd : Int} {count i q : Nat} {out : List α} : s.fds fd = some (i, q) →
      out = ((s.data i).drop q).take count →
      Step L s (.read fd count (some out))
        { s with fds := Function.update s.fds fd (some (i, q + out.length)) }
  | writeClosed {fd : Int} {buf : List α} : s.fds fd = none → Step L s (.write fd buf none) s
  | writeNothing {fd : Int} {buf : List α} {i q : Nat} : s.fds fd = some (i, q) →
      min buf.length (L.size - q) = 0 → Step L s (.write fd buf (some 0)) s
  | write {fd : Int} {buf gap : List α} {i q n : Nat} : s.fds fd = some (i, q) →
      n = min buf.length (L.size - q) → 0 < n → gap.length = q - (s.data i).length →
      Step L s (.write fd buf (some n))
        { s with
          data := Function.update s.data i (splice (s.data i ++ gap) (buf.take n) q)
          fds := Function.update s.fds fd (some (i, q + n)) }
  | closeNone {fd : Int} : s.fds fd = none → Step L s (.close fd false) s
  | close {fd : Int} {i q : Nat} : s.fds fd = some (i, q) →
      Step L s (.close fd true) { s with fds := Function.update s.fds fd none }

/-- The store as a transition system. -/
def lts (P α : Type*) (L : FileLimits) : Lts (FileStore P α) (FileEvent P α) where
  step := Step L

/-- **Careful calls**: names are new, and what is removed is not open. -/
def Careful (L : FileLimits) (s : FileStore P α) : FileEvent P α → Prop
  | .create p _ => ∀ i < L.slots, s.name i ≠ some p
  | .unlink p _ => ∀ fd i q, s.fds fd = some (i, q) → s.name i ≠ some p
  | _ => True

end FileStore

/-! ## The map -/

namespace FileMap

variable {P α : Type*}

/-- Nothing is in use. -/
def init (P α : Type*) (room : Nat) : FileMap P α where
  file := fun _ => none
  fds := fun _ => none
  next := 0
  room := room

/-- There are as many files as slots. -/
def Full (L : FileLimits) (f : FileMap P α) : Prop := L.slots ≤ {p | f.file p ≠ none}.ncard

/-- A descriptor on the file, if there is one left. -/
def grant (L : FileLimits) (f : FileMap P α) (p : P) : Option Nat × FileMap P α :=
  if f.next < L.fds then
    (some f.next, { f with fds := Function.update f.fds f.next (some (p, 0)), next := f.next + 1 })
  else (none, f)

variable [DecidableEq P]

/-- What is stored under a name. -/
def put (f : FileMap P α) (p : P) (d : Option (List α)) : FileMap P α :=
  { f with file := Function.update f.file p d }

@[simp] theorem put_file_self {f : FileMap P α} {p : P} {d : Option (List α)} :
    (f.put p d).file p = d :=
  Function.update_self _ _ _

theorem put_file_of_ne {f : FileMap P α} {p q : P} {d : Option (List α)} (hq : q ≠ p) :
    (f.put p d).file q = f.file q :=
  Function.update_of_ne hq _ _

/-- The calls. -/
inductive Step (L : FileLimits) (f : FileMap P α) : FileEvent P α → FileMap P α → Prop
  | createFull {p : P} : f.Full L → Step L f (.create p none) f
  | createStarved {p : P} : ¬ f.Full L → f.room = 0 → Step L f (.create p none) f
  | create {p : P} {room : Nat} : ¬ f.Full L → f.room = room + 1 →
      Step L f (.create p (grant L ({ f with room := room }.put p (some [])) p).1)
        (grant L ({ f with room := room }.put p (some [])) p).2
  | openNone {p : P} : f.file p = none → Step L f (.openPath p none) f
  | openStarved {p : P} : f.file p ≠ none → f.room = 0 → Step L f (.openPath p none) f
  | openPath {p : P} {room : Nat} : f.file p ≠ none → f.room = room + 1 →
      Step L f (.openPath p (grant L { f with room := room } p).1)
        (grant L { f with room := room } p).2
  | unlinkNone {p : P} : f.file p = none → Step L f (.unlink p false) f
  | unlink {p : P} : f.file p ≠ none → Step L f (.unlink p true) (f.put p none)
  | readClosed {fd : Int} {count : Nat} : f.fds fd = none → Step L f (.read fd count none) f
  | read {fd : Int} {count q : Nat} {p : P} {d out : List α} : f.fds fd = some (p, q) →
      f.file p = some d → out = (d.drop q).take count →
      Step L f (.read fd count (some out))
        { f with fds := Function.update f.fds fd (some (p, q + out.length)) }
  | writeClosed {fd : Int} {buf : List α} : f.fds fd = none → Step L f (.write fd buf none) f
  | write {fd : Int} {buf d : List α} {p : P} {q n : Nat} : f.fds fd = some (p, q) →
      f.file p = some d → n = min buf.length (L.size - q) →
      Step L f (.write fd buf (some n))
        { f.put p (some (splice d (buf.take n) q)) with
          fds := Function.update f.fds fd (some (p, q + n)) }
  | closeNone {fd : Int} : f.fds fd = none → Step L f (.close fd false) f
  | close {fd : Int} {p : P} {q : Nat} : f.fds fd = some (p, q) →
      Step L f (.close fd true) { f with fds := Function.update f.fds fd none }

/-- The map as a transition system. -/
def lts (P α : Type*) [DecidableEq P] (L : FileLimits) : Lts (FileMap P α) (FileEvent P α) where
  step := Step L

end FileMap

/-! ## From the store to the map -/

namespace FileStore

variable {P α : Type*} {L : FileLimits} {s t : FileStore P α} {f : FileMap P α} {i : Nat} {p : P}

/-- The two sides of a descriptor: closed, or on one file, at one position inside of it. -/
inductive Handle (s : FileStore P α) : Option (Nat × Nat) → Option (P × Nat) → Prop
  | closed : Handle s none none
  | on {i q : Nat} {p : P} : s.name i = some p → q ≤ (s.data i).length →
      Handle s (some (i, q)) (some (p, q))

/-- **The map of a store** in which names are unique and no descriptor is stale. -/
structure Maps (L : FileLimits) (s : FileStore P α) (f : FileMap P α) : Prop where
  inj : ∀ i j p, s.name i = some p → s.name j = some p → i = j
  inside : ∀ i, s.name i ≠ none → i < L.slots
  file : ∀ p d, f.file p = some d ↔ ∃ i, s.name i = some p ∧ s.data i = d
  fds : ∀ fd, Handle s (s.fds fd) (f.fds fd)
  next : f.next = s.next
  room : f.room = s.room

/-- A descriptor stays good where its slot keeps its name and does not shrink. -/
theorem Handle.frame {a : Option (Nat × Nat)} {b : Option (P × Nat)} (h : Handle s a b)
    (hframe : ∀ i q, a = some (i, q) → t.name i = s.name i ∧
    (s.data i).length ≤ (t.data i).length) :
    Handle t a b := by
  cases h with
  | closed => exact .closed
  | @on i q p hname hpos =>
    obtain ⟨hsame, hle⟩ := hframe i q rfl
    exact .on (hsame.trans hname) (hpos.trans hle)

namespace Maps

theorem init (P α : Type*) (L : FileLimits) (room : Nat) :
    Maps L (FileStore.init P α room) (FileMap.init P α room) where
  inj i j p h := by cases h
  inside i h := absurd rfl h
  file p d := by
    constructor
    · intro h
      cases h
    · rintro ⟨i, h, -⟩
      cases h
  fds _ := .closed
  next := rfl
  room := rfl

theorem file_eq (h : Maps L s f) (hi : s.name i = some p) : f.file p = some (s.data i) :=
  (h.file p _).2 ⟨i, hi, rfl⟩

theorem file_eq_none (h : Maps L s f) : f.file p = none ↔ ∀ i, s.name i ≠ some p := by
  constructor
  · intro hnone i hi
    rw [h.file_eq hi] at hnone
    cases hnone
  · intro hno
    cases hp : f.file p with
    | none => rfl
    | some d =>
      obtain ⟨i, hi, -⟩ := (h.file p d).1 hp
      exact absurd hi (hno i)

/-- A name that none of the slots has is free. -/
theorem no_name (h : Maps L s f) (hno : ∀ k < L.slots, s.name k ≠ some p) : ∀ k,
    s.name k ≠ some p := by
  intro k hk
  exact hno k (h.inside k (by rw [hk]; exact Option.some_ne_none p)) hk

/-- The map is full when every slot is in use. -/
theorem full_iff (h : Maps L s f) : f.Full L ↔ ∀ k < L.slots, s.name k ≠ none := by
  classical
  have hcard : ((Finset.range L.slots).filter fun k => s.name k ≠ none).card =
      {p | f.file p ≠ none}.ncard := by
    rw [← Set.ncard_coe_finset]
    have hused : ∀ k, k ∈ (((Finset.range L.slots).filter fun k => s.name k ≠ none : Finset Nat) :
      Set Nat) →
        (s.name k).isSome := by
      intro k hk
      exact Option.isSome_iff_ne_none.2 (Finset.mem_filter.1 hk).2
    refine Set.ncard_congr (fun k hk => (s.name k).get (hused k hk)) ?_ ?_ ?_
    · intro k hk
      have hname : s.name k = some ((s.name k).get (hused k hk)) := (Option.some_get _).symm
      show f.file _ ≠ none
      rw [h.file_eq hname]
      exact Option.some_ne_none _
    · intro j k hj hk heq
      refine h.inj j k _ (Option.some_get (hused j hj)).symm ?_
      rw [heq, Option.some_get]
    · intro p hp
      obtain ⟨d, hd⟩ := Option.ne_none_iff_exists'.1 hp
      obtain ⟨k, hk, -⟩ := (h.file p d).1 hd
      have hne : s.name k ≠ none := by rw [hk]; exact Option.some_ne_none _
      refine ⟨k,
        Finset.mem_coe.2 (Finset.mem_filter.2 ⟨Finset.mem_range.2 (h.inside k hne), hne⟩), ?_⟩
      simp only [hk, Option.get_some]
  have hle := Finset.card_filter_le (Finset.range L.slots) fun k => s.name k ≠ none
  have hall := Finset.card_filter_eq_iff (s := Finset.range L.slots) (p := fun k => s.name k ≠ none)
  rw [Finset.card_range] at hle hall
  rw [FileMap.Full, ← hcard]
  constructor
  · intro hfull k hk
    exact hall.1 (Nat.le_antisymm hle hfull) k (Finset.mem_range.2 hk)
  · intro hno
    exact (hall.2 fun k hk => hno k (Finset.mem_range.1 hk)).ge

/-- Memory is taken. -/
theorem take (h : Maps L s f) (room : Nat) : Maps L { s with room := room }
    { f with room := room } :=
  { h with fds := fun fd => (h.fds fd).frame fun _ _ _ => ⟨rfl, Nat.le_refl _⟩, room := rfl }

/-- A descriptor is given. -/
theorem grant (h : Maps L s f) (hi : s.name i = some p) :
    (s.grant L i).1 = (f.grant L p).1 ∧ Maps L (s.grant L i).2 (f.grant L p).2 := by
  unfold FileStore.grant FileMap.grant
  rw [h.next]
  split
  · refine ⟨rfl, { h with fds := ?_, next := ?_ }⟩
    · intro fd
      dsimp only
      by_cases hfd : fd = s.next
      · rw [hfd, Function.update_self, Function.update_self]
        exact .on hi (Nat.zero_le _)
      · rw [Function.update_of_ne hfd, Function.update_of_ne hfd]
        exact (h.fds fd).frame fun _ _ _ => ⟨rfl, Nat.le_refl _⟩
    · rfl
  · exact ⟨rfl, h⟩

/-- What the map has for an open descriptor. -/
theorem handle (h : Maps L s f) {fd : Int} {q : Nat} (hfd : s.fds fd = some (i, q)) :
    ∃ p, s.name i = some p ∧ f.fds fd = some (p, q) ∧ f.file p = some (s.data i) ∧
      q ≤ (s.data i).length := by
  have hhandle := h.fds fd
  rw [hfd] at hhandle
  generalize f.fds fd = b at hhandle
  cases hhandle with
  | @on _ _ p hname hpos => exact ⟨p, hname, rfl, h.file_eq hname, hpos⟩

/-- And for a closed one. -/
theorem handle_none (h : Maps L s f) {fd : Int} (hfd : s.fds fd = none) : f.fds fd = none := by
  have hhandle := h.fds fd
  rw [hfd] at hhandle
  generalize f.fds fd = b at hhandle
  cases hhandle
  rfl

/-- No descriptor is on a slot that is not in use. -/
theorem not_open (h : Maps L s f) (hfree : s.name i = none) (fd : Int) (q : Nat) :
    s.fds fd ≠ some (i, q) := by
  intro hfd
  obtain ⟨p, hname, -⟩ := h.handle hfd
  rw [hfree] at hname
  cases hname

/-- A free slot gets a new name. -/
theorem addName [DecidableEq P] (h : Maps L s f) (hi : i < L.slots) (hfree : s.name i = none)
    (hnew : ∀ k, s.name k ≠ some p) : Maps L (s.rename i (some p)) (f.put p (some [])) where
  inj j k q hj hk := by
    by_cases hji : j = i
    · by_cases hki : k = i
      · rw [hji, hki]
      · rw [hji, rename_name_self] at hj
        rw [rename_name_of_ne hki, ← hj] at hk
        exact absurd hk (hnew k)
    · rw [rename_name_of_ne hji] at hj
      by_cases hki : k = i
      · rw [hki, rename_name_self] at hk
        rw [← hk] at hj
        exact absurd hj (hnew j)
      · rw [rename_name_of_ne hki] at hk
        exact h.inj j k q hj hk
  inside k hk := by
    by_cases hki : k = i
    · rwa [hki]
    · rw [rename_name_of_ne hki] at hk
      exact h.inside k hk
  file q d := by
    by_cases hq : q = p
    · rw [hq, FileMap.put_file_self, Option.some_inj]
      constructor
      · rintro rfl
        exact ⟨i, rename_name_self, rename_data_self⟩
      · rintro ⟨k, hk, rfl⟩
        by_cases hki : k = i
        · rw [hki, rename_data_self]
        · rw [rename_name_of_ne hki] at hk
          exact absurd hk (hnew k)
    · rw [FileMap.put_file_of_ne hq, h.file]
      refine exists_congr fun k => ?_
      by_cases hki : k = i
      · rw [hki, hfree, rename_name_self]
        constructor
        · rintro ⟨hk, -⟩
          cases hk
        · rintro ⟨hk, -⟩
          exact absurd (Option.some.inj hk).symm hq
      · rw [rename_name_of_ne hki, rename_data_of_ne hki]
  fds fd := by
    refine (h.fds fd).frame ?_
    rintro k q (hk : s.fds fd = some (k, q))
    have hki : k ≠ i := by
      rintro rfl
      exact h.not_open hfree fd q hk
    exact ⟨rename_name_of_ne hki, by rw [rename_data_of_ne hki]⟩
  next := h.next
  room := h.room

/-- A slot gives up the name it has, if any, while no descriptor is on it. -/
theorem dropName (h : Maps L s f) {f' : FileMap P α} (hopen : ∀ fd q, s.fds fd ≠ some (i, q))
    (hgone : ∀ q, s.name i = some q → f'.file q = none)
    (hkept : ∀ q, s.name i ≠ some q → f'.file q = f.file q) (hfds : f'.fds = f.fds)
    (hnext : f'.next = f.next) (hroom : f'.room = f.room) : Maps L (s.rename i none) f' := by
  have hstays : ∀ {k q}, (s.rename i none).name k = some q → k ≠ i ∧ s.name k = some q := by
    intro k q hk
    by_cases hki : k = i
    · rw [hki, rename_name_self] at hk
      cases hk
    · rw [rename_name_of_ne hki] at hk
      exact ⟨hki, hk⟩
  refine ⟨?_, ?_, ?_, ?_, hnext.trans h.next, hroom.trans h.room⟩
  · intro j k q hj hk
    exact h.inj j k q (hstays hj).2 (hstays hk).2
  · intro k hk
    obtain ⟨q, hq⟩ := Option.ne_none_iff_exists'.1 hk
    exact h.inside k (by rw [(hstays hq).2]; exact Option.some_ne_none q)
  · intro q d
    by_cases hq : s.name i = some q
    · rw [hgone q hq]
      constructor
      · intro hnone
        cases hnone
      · rintro ⟨k, hk, -⟩
        exact absurd (h.inj k i q (hstays hk).2 hq) (hstays hk).1
    · rw [hkept q hq, h.file]
      constructor
      · rintro ⟨k, hk, rfl⟩
        have hki : k ≠ i := by
          rintro rfl
          exact hq hk
        exact ⟨k, (rename_name_of_ne hki).trans hk, rename_data_of_ne hki⟩
      · rintro ⟨k, hk, rfl⟩
        obtain ⟨hki, hname⟩ := hstays hk
        exact ⟨k, hname, (rename_data_of_ne hki).symm⟩
  · intro fd
    rw [hfds]
    refine (h.fds fd).frame ?_
    rintro k q (hk : s.fds fd = some (k, q))
    have hki : k ≠ i := by
      rintro rfl
      exact hopen fd q hk
    exact ⟨rename_name_of_ne hki, by rw [rename_data_of_ne hki]⟩

/-- One descriptor changes. -/
theorem setHandle (h : Maps L s f) (fd : Int) {a : Option (Nat × Nat)} {b : Option (P × Nat)}
    (hab : Handle s a b) : Maps L { s with fds := Function.update s.fds fd a }
      { f with fds := Function.update f.fds fd b } := by
  refine { h with fds := ?_ }
  intro k
  dsimp only
  by_cases hk : k = fd
  · rw [hk, Function.update_self, Function.update_self]
    exact hab.frame fun _ _ _ => ⟨rfl, Nat.le_refl _⟩
  · rw [Function.update_of_ne hk, Function.update_of_ne hk]
    exact (h.fds k).frame fun _ _ _ => ⟨rfl, Nat.le_refl _⟩

/-- The data of a file grow. -/
theorem store [DecidableEq P] (h : Maps L s f) (hi : s.name i = some p) {d : List α}
    (hle : (s.data i).length ≤ d.length) :
    Maps L { s with data := Function.update s.data i d } (f.put p (some d)) where
  inj := h.inj
  inside := h.inside
  file q e := by
    by_cases hq : q = p
    · rw [hq, FileMap.put_file_self, Option.some_inj]
      constructor
      · rintro rfl
        exact ⟨i, hi, Function.update_self _ _ _⟩
      · rintro ⟨k, hk, rfl⟩
        dsimp only
        rw [h.inj k i p hk hi, Function.update_self]
    · rw [FileMap.put_file_of_ne hq, h.file]
      refine exists_congr fun k => and_congr_right fun hk => ?_
      have hki : k ≠ i := by
        rintro rfl
        exact hq (Option.some.inj (hk.symm.trans hi))
      dsimp only
      rw [Function.update_of_ne hki]
  fds fd := by
    refine (h.fds fd).frame fun k _ _ => ⟨rfl, ?_⟩
    dsimp only
    by_cases hk : k = i
    · rw [hk, Function.update_self]
      exact hle
    · rw [Function.update_of_ne hk]
  next := h.next
  room := h.room

/-- **One call** of a careful client. -/
theorem step [DecidableEq P] (h : Maps L s f) {e : FileEvent P α} (hcareful : s.Careful L e)
    (hstep : Step L s e t) :
    ∃ g, FileMap.Step L f e g ∧ Maps L t g := by
  cases hstep with
  | createFull hfull => exact ⟨f, .createFull (h.full_iff.2 hfull), h⟩
  | @createStarved p i hfirst hroom =>
    have hfree : ¬ f.Full L := fun hfull => h.full_iff.1 hfull i hfirst.1 hfirst.2.1
    refine ⟨f, .createStarved hfree (h.room.trans hroom), ?_⟩
    refine h.dropName (h.not_open hfirst.2.1) (fun q hq => ?_) (fun _ _ => rfl) rfl rfl rfl
    rw [hfirst.2.1] at hq
    cases hq
  | @create p i room hfirst hroom =>
    have hfree : ¬ f.Full L := fun hfull => h.full_iff.1 hfull i hfirst.1 hfirst.2.1
    have hnamed := (h.take room).addName hfirst.1 hfirst.2.1 (h.no_name hcareful)
    obtain ⟨hfd, hmaps⟩ := hnamed.grant rename_name_self
    rw [hfd]
    exact ⟨_, .create hfree (h.room.trans hroom), hmaps⟩
  | @openNone p hno =>
    exact ⟨f, .openNone (h.file_eq_none.2 (h.no_name hno)), h⟩
  | @openStarved p i hfirst hroom =>
    have hfile : f.file p ≠ none := by rw [h.file_eq hfirst.2.1]; exact Option.some_ne_none _
    exact ⟨f, .openStarved hfile (h.room.trans hroom), h⟩
  | @openPath p i room hfirst hroom =>
    have hfile : f.file p ≠ none := by rw [h.file_eq hfirst.2.1]; exact Option.some_ne_none _
    obtain ⟨hfd, hmaps⟩ := (h.take room).grant hfirst.2.1
    rw [hfd]
    exact ⟨_, .openPath hfile (h.room.trans hroom), hmaps⟩
  | @unlinkNone p hno =>
    exact ⟨f, .unlinkNone (h.file_eq_none.2 (h.no_name hno)), h⟩
  | @unlink p i hfirst =>
    have hname : s.name i = some p := hfirst.2.1
    have hfile : f.file p ≠ none := by rw [h.file_eq hname]; exact Option.some_ne_none _
    refine ⟨f.put p none, .unlink hfile, ?_⟩
    refine h.dropName (fun fd q hfd => hcareful fd i q hfd hname) (fun q hq => ?_)
      (fun q hq => ?_) rfl rfl rfl
    · obtain rfl : p = q := Option.some.inj (hname.symm.trans hq)
      exact FileMap.put_file_self
    · refine FileMap.put_file_of_ne ?_
      rintro rfl
      exact hq hname
  | readClosed hfd => exact ⟨f, .readClosed (h.handle_none hfd), h⟩
  | @read fd count i q out hfd hout =>
    obtain ⟨p, hname, hmap, hfile, hpos⟩ := h.handle hfd
    have hlen : q + out.length ≤ (s.data i).length := by
      rw [hout, List.length_take, List.length_drop]
      omega
    exact ⟨_, .read hmap hfile hout, h.setHandle fd (.on hname hlen)⟩
  | writeClosed hfd => exact ⟨f, .writeClosed (h.handle_none hfd), h⟩
  | @writeNothing fd buf i q hfd hnone =>
    obtain ⟨p, hname, hmap, hfile, hpos⟩ := h.handle hfd
    refine ⟨_, .write hmap hfile hnone.symm, ?_⟩
    have hsame : splice (s.data i) (buf.take 0) q = s.data i := by simp [splice]
    have hput : f.put p (some (s.data i)) = f := by
      rw [FileMap.put, ← hfile, Function.update_eq_self]
    rw [hsame, hput, Nat.add_zero, ← hmap, Function.update_eq_self]
    exact h
  | @write fd buf gap i q n hfd hn hpos' hgap =>
    obtain ⟨p, hname, hmap, hfile, hpos⟩ := h.handle hfd
    have hnil : gap = [] := List.length_eq_zero_iff.1 (by omega)
    have hlen : (splice (s.data i) (buf.take n) q).length = max (s.data i).length (q + n) := by
      rw [SharedStream.length_splice hpos, List.length_take, Nat.min_eq_left (by omega)]
    refine ⟨_, .write hmap hfile hn, ?_⟩
    rw [hnil, List.append_nil]
    have hdata := h.store hname (d := splice (s.data i) (buf.take n) q) (by omega)
    refine hdata.setHandle fd (.on hname ?_)
    dsimp only
    rw [Function.update_self, hlen]
    exact Nat.le_max_right _ _
  | closeNone hfd => exact ⟨f, .closeNone (h.handle_none hfd), h⟩
  | @close fd i q hfd =>
    obtain ⟨p, -, hmap, -⟩ := h.handle hfd
    exact ⟨_, .close hmap, h.setHandle fd .closed⟩

end Maps

/-- **A careful run is a run of the map**, with the same answers. -/
theorem refines_map [DecidableEq P] {room : Nat} {tr : List (FileEvent P α)}
    (h : ((lts P α L).only fun s e _ => s.Careful L e).Run (init P α room) tr t) :
    ∃ f, (FileMap.lts P α L).Run (FileMap.init P α room) tr f ∧ Maps L t f :=
  h.simulates (fun _ _ _ _ hmaps hstep => hmaps.step hstep.2 hstep.1) (Maps.init P α L room)

end FileStore
