import OsArm.Lib.Linked
import OsArm.Lib.Shadowing
import OsArm.Lib.Transition
import OsArm.Vfs.Basic

/-!
# The namespace lists of the processes (`namespace.c`)

Every process has a linked list of bindings.  `bind` puts a node in front of the list of the
current process, `unbind` searches it with a `prev` pointer and takes a node out.

* `Namespaces.Holds` — the lists in memory end, share no node, and their entries are these;
  `Namespaces.entries_eq` reads them off the memory.
* `Namespaces.bind_spec`, `Namespaces.unbind_spec` — on the entries, the two are the operations
  of a stack of named entries.
* `Namespaces.bind_refines` — the binding on memory is that of `OsArm.bind` on the list of the
  current process.
* `unbind_undoes_bind` — removing a binding leaves the list as if it had never been made.
-/

namespace OsArm

/-! ## State -/

/-- The `old_path`, `new_path` and `flags` of a `struct namespace`; a path does not fill the
address space. -/
structure MountEntry extends Binding where
  flags : Int32
  old_lt : oldPath.length + 1 < 2 ^ 63
  new_lt : newPath.length + 1 < 2 ^ 63
  deriving DecidableEq

/-- The name of a binding is its target. -/
def target (e : MountEntry) : Str := e.newPath

/-- `struct namespace`. -/
structure NamespaceNode where
  entry : MountEntry
  next : Option Nat

/-- The VFS, the nodes on the heap by address, `ns.mounts` of every process, and
`current_process`.  The list in `v` is not used. -/
structure Namespaces where
  v : Vfs
  node : Nat → NamespaceNode
  mounts : Nat → Option Nat
  currentProcess : Option Nat

namespace Namespaces

/-- The link function. -/
def next (s : Namespaces) (a : Nat) : Option Nat := (s.node a).next

/-- The entries met from a node on; every node takes up bytes of the heap, so that `fuel` may
be its size. -/
def walk (s : Namespaces) : Nat → Option Nat → List MountEntry
  | _, none => []
  | 0, some _ => []
  | fuel + 1, some a => (s.node a).entry :: s.walk fuel (s.next a)

/-- The bindings of a process. -/
def entries (s : Namespaces) (p : Nat) : List MountEntry := s.walk heapSize (s.mounts p)

/-- The VFS as the current process sees it. -/
def view (s : Namespaces) : Vfs :=
  { s.v with ns := match s.currentProcess with
      | none => []
      | some c => (s.entries c).map MountEntry.toBinding }

/-- What a call of the VFS leaves behind. -/
def setHeap (s : Namespaces) (heap : Heap) : Namespaces := { s with v := { s.v with heap := heap } }

/-! ## `bind` and `unbind` -/

/-- `create_namespace`: the node, `none` for `NULL`. -/
def createNamespace (s : Namespaces) (e : MountEntry) : Option Nat × Namespaces :=
  match kalloc s.v.heap sizeofNamespace with
  | none => (none, s)
  | some (ns, _) =>
    let (ok, heap) := OsArm.createNamespace s.v.heap e.oldPath e.newPath
    let s := s.setHeap heap
    if ok then (some ns, { s with node := Function.update s.node ns { entry := e, next := none } })
    else (none, s)

/-- The node becomes the first one of the current process. -/
def addMount (s : Namespaces) (ns : Nat) : Namespaces :=
  match s.currentProcess with
  | none => s
  | some c =>
    { s with
      node := Function.update s.node ns { s.node ns with next := s.mounts c }
      mounts := Function.update s.mounts c (some ns) }

/-- `bind`. -/
def bind (before : UInt8) (s : Namespaces) (e : MountEntry) : Int × Namespaces :=
  match vfsReadDir before s.view e.oldPath 1 with
  | (none, v) => (-1, s.setHeap v.heap)
  | (some _, v) =>
    let s := s.setHeap v.heap
    match vfsReadDir before s.view e.newPath 1 with
    | (none, v) => (-1, s.setHeap v.heap)
    | (some _, v) =>
      match (s.setHeap v.heap).createNamespace e with
      | (none, s) => (-1, s)
      | (some ns, s) => (0, s.addMount ns)

/-- The node `entry`, with `prev` before it, is taken out of the list of process `c`. -/
def removeMount (s : Namespaces) (c : Nat) (prev : Option Nat) (entry : Nat) : Namespaces :=
  match prev with
  | some p => { s with node := Function.update s.node p { s.node p with next := s.next entry } }
  | none => { s with mounts := Function.update s.mounts c (s.next entry) }

/-- `unbind`; `none` when the loop does not end.  The three `kfree` do nothing. -/
def unbind (s : Namespaces) (path : Str) : Option (Int × Namespaces) :=
  match s.currentProcess with
  | none => some (-1, s)
  | some c =>
    (findPrevFrom s.next (fun a => strcmpStr (s.node a).entry.newPath path = 0) heapSize none
      (s.mounts c)).map fun
      | none => (-1, s)
      | some (prev, entry) => (0, s.removeMount c prev entry)

/-! ## The lists in memory -/

/-- The lists of the processes end, share no node, and lie in the used part of the heap. -/
structure Mounted (s : Namespaces) (nodes : Nat → List Nat) : Prop where
  linked : ∀ p, Linked s.next (s.mounts p) (nodes p)
  apart : ∀ p q, p ≠ q → (nodes p).Disjoint (nodes q)
  below : ∀ p, ∀ a ∈ nodes p, a < s.v.heap.pos
  heap_le : s.v.heap.pos ≤ heapSize

/-- **The lists in memory hold these entries.** -/
def Holds (s : Namespaces) (es : Nat → List MountEntry) : Prop :=
  ∃ nodes, s.Mounted nodes ∧ ∀ p, es p = (nodes p).map fun a => (s.node a).entry

section Lists

variable {s : Namespaces} {nodes : Nat → List Nat} {es : Nat → List MountEntry} {c : Nat}

theorem walk_eq {fuel : Nat} {start : Option Nat} {xs : List Nat} (h : Linked s.next start xs)
    (hfuel : xs.length ≤ fuel) : s.walk fuel start = xs.map fun a => (s.node a).entry := by
  induction xs generalizing start fuel with
  | nil =>
    have hnone : start = none := h
    rw [hnone]
    cases fuel <;> rfl
  | cons a xs ih =>
    obtain ⟨rfl, hxs⟩ := h
    cases fuel with
    | zero => simp at hfuel
    | succ fuel => rw [walk, ih hxs (by simpa using hfuel), List.map_cons]

/-- A list has at most as many nodes as the heap has bytes. -/
theorem Mounted.length_le (h : s.Mounted nodes) (p : Nat) : (nodes p).length ≤ heapSize := by
  have hsub : nodes p ⊆ List.range heapSize := fun a ha =>
    List.mem_range.2 (Nat.lt_of_lt_of_le (h.below p a ha) h.heap_le)
  simpa using ((h.linked p).nodup.subperm hsub).length_le

/-- The entries can be read off the memory. -/
theorem entries_eq (h : s.Holds es) : s.entries = es := by
  obtain ⟨nodes, hm, hes⟩ := h
  funext p
  rw [hes, entries, walk_eq (hm.linked p) (hm.length_le p)]

/-- At the start no process has bindings. -/
theorem holds_empty (h : ∀ p, s.mounts p = none) (hheap : s.v.heap.pos ≤ heapSize) :
    s.Holds fun _ => [] :=
  ⟨fun _ => [], ⟨h, fun _ _ _ => by simp, by simp, hheap⟩, fun _ => rfl⟩

/-- Steps that change no node in use and no start leave the lists alone. -/
theorem Holds.frame {t : Namespaces} (h : s.Holds es)
    (hnode : ∀ a < s.v.heap.pos, t.node a = s.node a) (hmounts : t.mounts = s.mounts)
    (hpos : s.v.heap.pos ≤ t.v.heap.pos) (hle : t.v.heap.pos ≤ heapSize) : t.Holds es := by
  obtain ⟨nodes, hm, hes⟩ := h
  refine ⟨nodes, ⟨?_, hm.apart, fun p a ha => Nat.lt_of_lt_of_le (hm.below p a ha) hpos, hle⟩, ?_⟩
  · intro p
    rw [hmounts]
    exact (hm.linked p).congr fun a ha => congrArg NamespaceNode.next (hnode a (hm.below p a ha))
  · intro p
    rw [hes]
    exact List.map_congr_left fun a ha =>
      (congrArg NamespaceNode.entry (hnode a (hm.below p a ha))).symm

theorem Holds.heap_le (h : s.Holds es) : s.v.heap.pos ≤ heapSize := by
  obtain ⟨nodes, hm, -⟩ := h
  exact hm.heap_le

/-! ## Adding a node -/

/-- **Adding a fresh node** in front of the list of process `c`. -/
theorem Holds.add {t : Namespaces} {e : MountEntry} {ns : Nat} (h : s.Holds es)
    (hns : ns = s.v.heap.pos) (hpos : ns < t.v.heap.pos) (hle : t.v.heap.pos ≤ heapSize)
    (hnode : t.node = Function.update s.node ns { entry := e, next := s.mounts c })
    (hmounts : t.mounts = Function.update s.mounts c (some ns)) :
    t.Holds (Function.update es c (e :: es c)) := by
  obtain ⟨nodes, hm, hes⟩ := h
  have hfresh : ∀ p, ∀ a ∈ nodes p, a ≠ ns := by
    rintro p a ha rfl
    exact absurd (hm.below p a ha) (by omega)
  have hold : ∀ p, ∀ a ∈ nodes p, t.node a = s.node a := fun p a ha => by
    rw [hnode, Function.update_of_ne (hfresh p a ha)]
  have hlink : ∀ p, Linked t.next (s.mounts p) (nodes p) := fun p =>
    (hm.linked p).congr fun a ha => congrArg NamespaceNode.next (hold p a ha)
  have hsame : ∀ p, es p = (nodes p).map fun a => (t.node a).entry := fun p => by
    rw [hes]
    exact List.map_congr_left fun a ha => (congrArg NamespaceNode.entry (hold p a ha)).symm
  have hnew : t.node ns = { entry := e, next := s.mounts c } := by
    rw [hnode, Function.update_self]
  refine ⟨Function.update nodes c (ns :: nodes c), ⟨?_, ?_, ?_, hle⟩, ?_⟩
  · intro p
    by_cases hp : p = c
    · subst hp
      rw [hmounts, Function.update_self, Function.update_self]
      exact (hlink p).push (congrArg NamespaceNode.next hnew)
    · rw [hmounts, Function.update_of_ne hp, Function.update_of_ne hp]
      exact hlink p
  · intro p q hpq
    by_cases hp : p = c
    · subst hp
      rw [Function.update_self, Function.update_of_ne (Ne.symm hpq), List.disjoint_cons_left]
      exact ⟨fun hmem => hfresh q ns hmem rfl, hm.apart p q hpq⟩
    · rw [Function.update_of_ne hp]
      by_cases hq : q = c
      · subst hq
        rw [Function.update_self, List.disjoint_cons_right]
        exact ⟨fun hmem => hfresh p ns hmem rfl, hm.apart p q hpq⟩
      · rw [Function.update_of_ne hq]
        exact hm.apart p q hpq
  · intro p a ha
    have hbelow : ∀ q, a ∈ nodes q → a < t.v.heap.pos := fun q hq =>
      Nat.lt_trans (Nat.lt_of_lt_of_eq (hm.below q a hq) hns.symm) hpos
    by_cases hp : p = c
    · subst hp
      rw [Function.update_self] at ha
      rcases List.mem_cons.1 ha with rfl | ha
      · exact hpos
      · exact hbelow p ha
    · rw [Function.update_of_ne hp] at ha
      exact hbelow p ha
  · intro p
    by_cases hp : p = c
    · subst hp
      rw [Function.update_self, Function.update_self, List.map_cons, hnew, ← hsame]
    · rw [Function.update_of_ne hp, Function.update_of_ne hp]
      exact hsame p

/-! ## Taking a node out -/

/-- Where the nodes of one process are only rearranged, the other lists stay. -/
theorem Mounted.update {t : Namespaces} {xs : List Nat} (h : s.Mounted nodes) (hv : t.v = s.v)
    (hsub : xs ⊆ nodes c) (hlink : Linked t.next (t.mounts c) xs)
    (hmounts : ∀ p, p ≠ c → t.mounts p = s.mounts p)
    (hnext : ∀ p, p ≠ c → ∀ a ∈ nodes p, t.next a = s.next a) :
    t.Mounted (Function.update nodes c xs) := by
  have hmem : ∀ p, Function.update nodes c xs p ⊆ nodes p := fun p => by
    by_cases hp : p = c
    · subst hp
      rwa [Function.update_self]
    · rw [Function.update_of_ne hp]
      exact List.Subset.refl _
  refine ⟨?_, fun p q hpq a ha hb => h.apart p q hpq (hmem p ha) (hmem q hb), ?_, ?_⟩
  · intro p
    by_cases hp : p = c
    · subst hp
      rwa [Function.update_self]
    · rw [Function.update_of_ne hp, hmounts p hp]
      exact (h.linked p).congr (hnext p hp)
  · intro p a ha
    rw [hv]
    exact h.below p a (hmem p ha)
  · rw [hv]
    exact h.heap_le

/-- **Taking a node out** of the list of process `c`. -/
theorem Mounted.remove {as bs : List Nat} {a : Nat} (h : s.Mounted nodes)
    (hcut : nodes c = as ++ a :: bs) :
    (s.removeMount c (as.getLast?.or none) a).Mounted (Function.update nodes c (as ++ bs)) ∧
      ∀ b, ((s.removeMount c (as.getLast?.or none) a).node b).entry = (s.node b).entry := by
  have hlink := h.linked c
  rw [hcut] at hlink
  have hsub : as ++ bs ⊆ nodes c := by
    rw [hcut]
    exact List.append_subset.2 ⟨List.subset_append_left _ _,
      fun b hb => List.mem_append_right _ (List.mem_cons_of_mem _ hb)⟩
  rcases List.eq_nil_or_concat as with rfl | ⟨as, p, rfl⟩
  · refine ⟨h.update rfl hsub ?_ (fun p hp => Function.update_of_ne hp _ _) fun _ _ _ _ => rfl,
      fun _ => rfl⟩
    have hstart : (s.removeMount c (([] : List Nat).getLast?.or none) a).mounts c = s.next a :=
      Function.update_self _ _ _
    rw [hstart]
    exact hlink.suffix
  · have hlast : ((as.concat p).getLast?.or none) = some p := by simp
    rw [List.concat_eq_append, List.append_assoc, List.singleton_append] at hlink
    have hself : (s.removeMount c (some p) a).node p = { s.node p with next := s.next a } :=
      Function.update_self _ _ _
    have hother : ∀ b, b ≠ p → (s.removeMount c (some p) a).node b = s.node b := fun b hb =>
      Function.update_of_ne hb _ _
    have hnext : (s.removeMount c (some p) a).next = Function.update s.next p (s.next a) := by
      funext b
      rw [next]
      by_cases hb : b = p
      · rw [hb, hself, Function.update_self]
      · rw [hother b hb, Function.update_of_ne hb, next]
    rw [hlast]
    refine ⟨h.update rfl hsub ?_ (fun _ _ => rfl) fun q hq b hb => ?_, ?_⟩
    · rw [hnext, List.concat_eq_append, List.append_assoc, List.singleton_append]
      exact hlink.unlink
    · rw [hnext, Function.update_of_ne]
      rintro rfl
      refine h.apart q c hq hb ?_
      rw [hcut, List.concat_eq_append]
      simp
    · intro b
      by_cases hb : b = p
      · rw [hb, hself]
      · rw [hother b hb]

/-! ## The calls -/

/-- A walk of `resolve_namespace_path` takes at most one piece of the heap. -/
theorem resolveNamespacePath_heap (before : UInt8) {heap : Heap} (path : Str) (ns : List Binding)
    (hle : heap.pos ≤ heapSize) :
    heap.pos ≤ (resolveNamespacePath before heap path ns).2.pos ∧
      (resolveNamespacePath before heap path ns).2.pos ≤ heapSize := by
  induction ns with
  | nil => exact ⟨Nat.le_refl _, hle⟩
  | cons b ns ih =>
    rw [resolveNamespacePath]
    split
    · cases halloc : kalloc heap vfsMaxPath with
      | none => exact ⟨Nat.le_refl _, hle⟩
      | some r => exact kalloc_grows hle (by decide) halloc
    · exact ih

/-- So does `vfs_read_dir`. -/
theorem vfsReadDir_heap (before : UInt8) {v : Vfs} (path : Str) (n : Nat)
    (hle : v.heap.pos ≤ heapSize) :
    v.heap.pos ≤ (vfsReadDir before v path n).2.heap.pos ∧
      (vfsReadDir before v path n).2.heap.pos ≤ heapSize := by
  rw [vfsReadDir_snd]
  exact resolveNamespacePath_heap before path v.ns hle

/-- `create_namespace` moves the heap up, and by more than nothing when it succeeds. -/
theorem createNamespace_heap {heap : Heap} {old new : Str} (hle : heap.pos ≤ heapSize)
    (hold : old.length + 1 < 2 ^ 63) (hnew : new.length + 1 < 2 ^ 63) :
    heap.pos ≤ (OsArm.createNamespace heap old new).2.pos ∧
      (OsArm.createNamespace heap old new).2.pos ≤ heapSize ∧
      ((OsArm.createNamespace heap old new).1 = true →
        heap.pos < (OsArm.createNamespace heap old new).2.pos) := by
  unfold OsArm.createNamespace
  cases halloc : kalloc heap sizeofNamespace with
  | none => exact ⟨Nat.le_refl _, hle, fun h => by cases h⟩
  | some r =>
    obtain ⟨-, hpos, hsum⟩ := kalloc_some hle (by decide) halloc
    have hsize : 0 < sizeofNamespace := by decide
    have hlast : ∀ h : Heap, heap.pos + sizeofNamespace ≤ h.pos → h.pos ≤ heapSize →
        heap.pos + sizeofNamespace ≤ (match kalloc h (new.length + 1) with
          | none => (false, h)
          | some (_, heap) => (true, heap)).2.pos ∧
        (match kalloc h (new.length + 1) with
          | none => (false, h)
          | some (_, heap) => (true, heap)).2.pos ≤ heapSize := by
      intro h hlow hhigh
      cases hpiece : kalloc h (new.length + 1) with
      | none => exact ⟨hlow, hhigh⟩
      | some r =>
        have hgrow := kalloc_grows hhigh hnew hpiece
        exact ⟨Nat.le_trans hlow hgrow.1, hgrow.2⟩
    have hboth : heap.pos + sizeofNamespace ≤ (OsArm.createNamespace heap old new).2.pos ∧
        (OsArm.createNamespace heap old new).2.pos ≤ heapSize := by
      simp only [OsArm.createNamespace, halloc]
      cases hpiece : kalloc r.2 (old.length + 1) with
      | none => exact hlast r.2 (Nat.le_of_eq hpos.symm) (by omega)
      | some r' =>
        have hgrow := kalloc_grows (by omega) hold hpiece
        exact hlast r'.2 (by omega) hgrow.2
    simp only [OsArm.createNamespace, halloc] at hboth
    dsimp only
    omega

/-- **`create_namespace`**: `NULL`, or a fresh node; the lists stay as they were. -/
theorem createNamespace_spec (h : s.Holds es) (e : MountEntry) :
    (s.createNamespace e).2.currentProcess = s.currentProcess ∧ (s.createNamespace e).2.Holds es ∧
    ((s.createNamespace e).1 = none ∨
      (s.createNamespace e).1 = some s.v.heap.pos ∧
        s.v.heap.pos < (s.createNamespace e).2.v.heap.pos ∧
        (s.createNamespace e).2.v.heap.pos ≤ heapSize ∧
        (s.createNamespace e).2.node =
          Function.update s.node s.v.heap.pos { entry := e, next := none } ∧
        (s.createNamespace e).2.mounts = s.mounts) := by
  obtain ⟨hpos, hle, hlt⟩ := createNamespace_heap h.heap_le e.old_lt e.new_lt
  unfold createNamespace
  cases halloc : kalloc s.v.heap sizeofNamespace with
  | none => exact ⟨rfl, h, Or.inl rfl⟩
  | some r =>
    obtain ⟨ns, heap⟩ := r
    obtain ⟨rfl, -, -⟩ := kalloc_some h.heap_le (by decide) halloc
    dsimp only
    cases hok : (OsArm.createNamespace s.v.heap e.oldPath e.newPath).1 with
    | false => exact ⟨rfl, h.frame (fun _ _ => rfl) rfl hpos hle, Or.inl rfl⟩
    | true =>
      refine ⟨rfl, h.frame (fun a ha => ?_) rfl hpos hle, Or.inr ⟨rfl, hlt hok, hle, rfl, rfl⟩⟩
      exact Function.update_of_ne (Nat.ne_of_lt ha) _ _

/-- `bind` fails, or does what follows a successful `create_namespace`. -/
theorem bind_cases (h : s.Holds es) (before : UInt8) (e : MountEntry) :
    (s.bind before e).1 = -1 ∧ (s.bind before e).2.Holds es ∧
        (s.bind before e).2.currentProcess = s.currentProcess ∨
      ∃ (s' : Namespaces) (ns : Nat) (t : Namespaces), s'.Holds es ∧
        s'.currentProcess = s.currentProcess ∧
        s'.createNamespace e = (some ns, t) ∧ s.bind before e = (0, t.addMount ns) := by
  have hheap : ∀ {s : Namespaces} (path : Str), s.Holds es →
      (s.setHeap (vfsReadDir before s.view path 1).2.heap).Holds es := fun {s} path h =>
    have hread := vfsReadDir_heap before path 1 (show s.view.heap.pos ≤ heapSize from h.heap_le)
    h.frame (fun _ _ => rfl) rfl hread.1 hread.2
  have hold := hheap e.oldPath h
  unfold bind
  generalize vfsReadDir before s.view e.oldPath 1 = x at hold
  obtain ⟨out, v⟩ := x
  cases out with
  | none => exact Or.inl ⟨rfl, hold, rfl⟩
  | some _ =>
    dsimp only at hold ⊢
    have hnew := hheap e.newPath hold
    generalize vfsReadDir before (s.setHeap v.heap).view e.newPath 1 = y at hnew
    obtain ⟨out, v'⟩ := y
    cases out with
    | none => exact Or.inl ⟨rfl, hnew, rfl⟩
    | some _ =>
      dsimp only at hnew ⊢
      cases hcreate : ((s.setHeap v.heap).setHeap v'.heap).createNamespace e with
      | mk ns t =>
        have hspec := createNamespace_spec hnew e
        rw [hcreate] at hspec
        cases ns with
        | none => exact Or.inl ⟨rfl, hspec.2.1, hspec.1⟩
        | some ns => exact Or.inr ⟨_, ns, t, hnew, rfl, hcreate, rfl⟩

/-- **A successful `bind`** pushes the binding onto the list of the current process; one that
fails changes no list. -/
theorem bind_spec (h : s.Holds es) (hc : s.currentProcess = some c) (before : UInt8)
    (e : MountEntry) :
    (s.bind before e).2.currentProcess = some c ∧
      ((s.bind before e).1 = 0 ∧ (s.bind before e).2.Holds (Function.update es c (e :: es c)) ∨
        (s.bind before e).1 = -1 ∧ (s.bind before e).2.Holds es) := by
  rcases bind_cases h before e with ⟨hret, hholds, hcur⟩ | ⟨s', ns, t, h', hcur, hcreate, hbind⟩
  · exact ⟨hcur.trans hc, Or.inr ⟨hret, hholds⟩⟩
  · have hspec := createNamespace_spec h' e
    rw [hcreate] at hspec
    obtain ⟨hcur', -, hcase⟩ := hspec
    have hcur'' : t.currentProcess = some c := hcur'.trans (hcur.trans hc)
    rcases hcase with hnone | ⟨hns, hpos, hle, hnode, hmounts⟩
    · cases hnone
    · have hns' := Option.some.inj hns
      dsimp only at hpos hle hnode hmounts
      simp only [hbind, addMount, hcur'']
      refine ⟨trivial, Or.inl ⟨trivial, h'.add hns' (by rwa [hns']) hle ?_ ?_⟩⟩
      · dsimp only
        rw [hnode, hmounts, ← hns', Function.update_idem, Function.update_self]
      · exact congrArg (Function.update · c (some ns)) hmounts

/-- Without a current process `bind` changes no list. -/
theorem bind_of_none (h : s.Holds es) (hc : s.currentProcess = none) (before : UInt8)
    (e : MountEntry) : (s.bind before e).2.Holds es := by
  rcases bind_cases h before e with ⟨-, hholds, -⟩ | ⟨s', ns, t, h', hcur, hcreate, hbind⟩
  · exact hholds
  · have hspec := createNamespace_spec h' e
    rw [hcreate] at hspec
    obtain ⟨hcur', hholds, -⟩ := hspec
    have hcur'' : t.currentProcess = none := hcur'.trans (hcur.trans hc)
    simp only [hbind, addMount, hcur'']
    exact hholds

/-- **`unbind`** always ends: it removes the first binding with this target, or there is none
and it changes nothing. -/
theorem unbind_spec (h : s.Holds es) (hc : s.currentProcess = some c) {path : Str}
    (hpath : NulFree path) :
    (Shadow.Has target (es c) path ∧ ∃ t, s.unbind path = some (0, t) ∧
      t.currentProcess = some c ∧
      t.Holds (Function.update es c ((es c).eraseP (Shadow.named target path)))) ∨
    ¬ Shadow.Has target (es c) path ∧ s.unbind path = some (-1, s) := by
  obtain ⟨nodes, hm, hes⟩ := h
  have hcmp : ∀ a, decide (strcmpStr (s.node a).entry.newPath path = 0) =
      Shadow.named target path (s.node a).entry := fun a =>
    decide_eq_decide.2 (strcmpStr_eq_zero_iff (s.node a).entry.new_nul hpath)
  simp only [unbind, hc, hcmp]
  rcases (hm.linked c).findPrevFrom_eq (hm.length_le c)
    (fun a => Shadow.named target path (s.node a).entry) none with
    ⟨hloop, hnone⟩ | ⟨as, a, bs, hcut, has, ha, hloop⟩
  · right
    rw [hloop]
    refine ⟨?_, rfl⟩
    rintro ⟨e, he, hk⟩
    rw [hes] at he
    obtain ⟨b, hb, rfl⟩ := List.mem_map.1 he
    exact Bool.false_ne_true ((hnone b hb).symm.trans (Shadow.named_iff.2 hk))
  · left
    rw [hloop]
    obtain ⟨hremove, hentry⟩ := hm.remove hcut
    refine ⟨⟨(s.node a).entry, ?_, Shadow.named_iff.1 ha⟩, _, rfl, ?_, _, hremove, ?_⟩
    · rw [hes, hcut]
      simp
    · cases as.getLast?.or none <;> exact hc
    · intro p
      have hsame : ∀ xs : List Nat, (xs.map fun b =>
          ((s.removeMount c (as.getLast?.or none) a).node b).entry) =
            xs.map fun b => (s.node b).entry := fun xs =>
        List.map_congr_left fun b _ => hentry b
      rw [hsame]
      by_cases hp : p = c
      · subst hp
        have hbefore : ∀ e ∈ as.map fun b => (s.node b).entry,
            ¬ Shadow.named target path e = true := by
          intro e he
          obtain ⟨b, hb, rfl⟩ := List.mem_map.1 he
          rw [has b hb]
          exact Bool.false_ne_true
        rw [Function.update_self, Function.update_self, hes, hcut, List.map_append, List.map_cons,
          List.eraseP_append_right _ hbefore, List.eraseP_cons_of_pos ha, List.map_append]
      · rw [Function.update_of_ne hp, Function.update_of_ne hp, hes]

end Lists

theorem walk_setHeap (s : Namespaces) (heap : Heap) (fuel : Nat) (start : Option Nat) :
    (s.setHeap heap).walk fuel start = s.walk fuel start := by
  induction fuel generalizing start with
  | zero => cases start <;> rfl
  | succ fuel ih =>
    cases start with
    | none => rfl
    | some a =>
      rw [walk, walk, ih]
      rfl

theorem view_setHeap (s : Namespaces) (heap : Heap) :
    (s.setHeap heap).view = { s.view with heap := heap } := by
  have hentries : (s.setHeap heap).entries = s.entries := by
    funext p
    exact walk_setHeap s heap heapSize _
  rw [view, hentries]
  rfl

/-- `bind` answers the same for the list in memory. -/
theorem bind_ret (s : Namespaces) (before : UInt8) (e : MountEntry) :
    (OsArm.bind before s.view e.toBinding).1 = (s.bind before e).1 := by
  have hold := vfsReadDir_snd before s.view e.oldPath 1
  unfold OsArm.bind Namespaces.bind
  generalize vfsReadDir before s.view e.oldPath 1 = x at hold
  obtain ⟨out, v⟩ := x
  cases out with
  | none => rfl
  | some _ =>
    dsimp only at hold ⊢
    have hview : (s.setHeap v.heap).view = v := by rw [view_setHeap, hold]
    rw [hview]
    generalize vfsReadDir before v e.newPath 1 = y
    obtain ⟨out, v'⟩ := y
    cases out with
    | none => rfl
    | some _ =>
      dsimp only [createNamespace, setHeap]
      cases halloc : kalloc v'.heap sizeofNamespace with
      | none =>
        have hfail : OsArm.createNamespace v'.heap e.oldPath e.newPath = (false, v'.heap) := by
          rw [OsArm.createNamespace, halloc]
        rw [hfail]
        rfl
      | some r =>
        dsimp only
        generalize OsArm.createNamespace v'.heap e.oldPath e.newPath = z
        obtain ⟨ok, heap⟩ := z
        cases ok <;> rfl

/-- The list after `OsArm.bind`. -/
theorem bind_ns (before : UInt8) (v : Vfs) (b : Binding) :
    (OsArm.bind before v b).1 = 0 ∧ (OsArm.bind before v b).2.ns = b :: v.ns ∨
      (OsArm.bind before v b).1 ≠ 0 ∧ (OsArm.bind before v b).2.ns = v.ns := by
  have hneg : (-1 : Int) ≠ 0 := by decide
  have hold := congrArg Vfs.ns (vfsReadDir_snd before v b.oldPath 1)
  unfold OsArm.bind
  generalize vfsReadDir before v b.oldPath 1 = x at hold
  obtain ⟨out, v₁⟩ := x
  cases out with
  | none => exact Or.inr ⟨hneg, hold⟩
  | some _ =>
    have hnew := congrArg Vfs.ns (vfsReadDir_snd before v₁ b.newPath 1)
    dsimp only at hold ⊢
    generalize vfsReadDir before v₁ b.newPath 1 = y at hnew
    obtain ⟨out, v₂⟩ := y
    have hns : v₂.ns = v.ns := hnew.trans hold
    cases out with
    | none => exact Or.inr ⟨hneg, hns⟩
    | some _ =>
      dsimp only
      split
      · exact Or.inl ⟨rfl, congrArg (b :: ·) hns⟩
      · exact Or.inr ⟨hneg, hns⟩

/-- **On the list of the current process** the binding on memory is `OsArm.bind`. -/
theorem bind_refines {s : Namespaces} {es : Nat → List MountEntry} {c : Nat} (h : s.Holds es)
    (hc : s.currentProcess = some c) (before : UInt8) (e : MountEntry) :
    (OsArm.bind before s.view e.toBinding).1 = (s.bind before e).1 ∧
      (OsArm.bind before s.view e.toBinding).2.ns = (s.bind before e).2.view.ns := by
  have hview : ∀ {t : Namespaces} {fs : Nat → List MountEntry}, t.Holds fs →
      t.currentProcess = some c → t.view.ns = (fs c).map MountEntry.toBinding := by
    intro t fs ht hcur
    simp only [view, hcur, entries_eq ht]
  have hret := bind_ret s before e
  refine ⟨hret, ?_⟩
  have hns := bind_ns before s.view e.toBinding
  rw [hret, hview h hc] at hns
  obtain ⟨hcur, ⟨hzero, hholds⟩ | ⟨hneg, hholds⟩⟩ := bind_spec h hc before e
  · rw [hview hholds hcur, Function.update_self, List.map_cons]
    exact (hns.resolve_right fun hne => hne.1 hzero).2
  · rw [hview hholds hcur]
    exact (hns.resolve_left fun heq => by rw [hneg] at heq; exact absurd heq.1 (by decide)).2

end Namespaces

/-! ## Runs -/

/-- A step of the system: a call of the current process, a switch to another one, or anything
else that it does with the VFS and the heap. -/
inductive NsCall
  | bind (before : UInt8) (e : MountEntry)
  | unbind (path : Str) (nul_free : NulFree path)
  | schedule (p : Option Nat)
  | other (v : Vfs)

/-- A call, the process that makes it, and the answer. -/
structure NsLabel where
  process : Option Nat
  call : NsCall
  ret : Int

/-- The answer and the state after; `none` when the call does not return. -/
def NsCall.apply (s : Namespaces) : NsCall → Option (Int × Namespaces)
  | bind before e => some (s.bind before e)
  | unbind path _ => s.unbind path
  | schedule p => some (0, { s with currentProcess := p })
  | other v => some (0, { s with v := v })

/-- What else happens only takes up more of the heap. -/
def NsCall.Ok (s : Namespaces) : NsCall → Prop
  | other v => s.v.heap.pos ≤ v.heap.pos ∧ v.heap.pos ≤ heapSize
  | _ => True

/-- The steps in any order. -/
def nsLts : Lts Namespaces NsLabel where
  step s l t := s.currentProcess = l.process ∧ l.call.Ok s ∧ l.call.apply s = some (l.ret, t)

/-- What a successful call of process `p` does to its bindings. -/
def NsLabel.op (p : Nat) (l : NsLabel) : Option (Shadow.Op MountEntry Str) :=
  if l.process = some p ∧ l.ret = 0 then
    match l.call with
    | .bind _ e => some (.push e)
    | .unbind path _ => some (.remove path)
    | _ => none
  else none

/-- The successful calls of process `p` in a run. -/
def bindingOps (p : Nat) (tr : List NsLabel) : List (Shadow.Op MountEntry Str) :=
  tr.filterMap (NsLabel.op p)

/-- What each step does to the bindings of the processes. -/
theorem bindingOps_singleton (p : Nat) (l : NsLabel) : bindingOps p [l] = (l.op p).toList := by
  rw [bindingOps, List.filterMap_cons, List.filterMap_nil]
  cases l.op p <;> rfl

theorem bindingOps_append (p : Nat) (tr tr' : List NsLabel) :
    bindingOps p (tr ++ tr') = bindingOps p tr ++ bindingOps p tr' := List.filterMap_append

/-- The bindings after one step. -/
def NsLabel.after (l : NsLabel) (es : Nat → List MountEntry) (p : Nat) : List MountEntry :=
  match l.op p with
  | none => es p
  | some op => op.apply target (es p)

theorem NsLabel.replay_eq (l : NsLabel) (es : Nat → List MountEntry) (p : Nat) :
    Shadow.replay target (bindingOps p [l]) (es p) = l.after es p := by
  rw [bindingOps_singleton, NsLabel.after]
  cases l.op p <;> rfl

/-- A step that is no successful call of a process on its bindings. -/
theorem NsLabel.after_of_none {l : NsLabel} {es : Nat → List MountEntry}
    (h : ∀ p, l.op p = none) : l.after es = es := by
  funext p
  rw [after, h]

/-- A successful call of process `c`. -/
theorem NsLabel.after_of_some {l : NsLabel} {es : Nat → List MountEntry} (c : Nat)
    (op : Shadow.Op MountEntry Str) (h : ∀ p, l.op p = if p = c then some op else none) :
    l.after es = Function.update es c (op.apply target (es c)) := by
  funext p
  rw [after, h]
  by_cases hp : p = c
  · subst hp
    rw [if_pos rfl, Function.update_self]
  · rw [if_neg hp, Function.update_of_ne hp]

/-- **One step.** -/
theorem Namespaces.Holds.step {s t : Namespaces} {es : Nat → List MountEntry} {l : NsLabel}
    (h : s.Holds es) (hstep : nsLts.step s l t) : t.Holds (l.after es) := by
  obtain ⟨process, call, ret⟩ := l
  obtain ⟨hcur, hok, happly⟩ := hstep
  dsimp only at hcur happly
  cases call with
  | schedule p =>
    have ht : (0, { s with currentProcess := p }) = (ret, t) := Option.some.inj happly
    rw [NsLabel.after_of_none fun q => by simp [NsLabel.op], ← (Prod.mk.inj ht).2]
    exact h.frame (fun _ _ => rfl) rfl (Nat.le_refl _) h.heap_le
  | other v =>
    have ht : (0, { s with v := v }) = (ret, t) := Option.some.inj happly
    rw [NsLabel.after_of_none fun q => by simp [NsLabel.op], ← (Prod.mk.inj ht).2]
    exact h.frame (fun _ _ => rfl) rfl hok.1 hok.2
  | bind before e =>
    have hcall : s.bind before e = (ret, t) := Option.some.inj happly
    have hret : (s.bind before e).1 = ret := congrArg Prod.fst hcall
    have ht : (s.bind before e).2 = t := congrArg Prod.snd hcall
    cases process with
    | none =>
      rw [NsLabel.after_of_none fun q => by simp [NsLabel.op], ← ht]
      exact bind_of_none h hcur before e
    | some c =>
      obtain ⟨-, ⟨hzero, hholds⟩ | ⟨hneg, hholds⟩⟩ := bind_spec h hcur before e
      · rw [NsLabel.after_of_some c (.push e) fun q => ?_, ← ht]
        · exact hholds
        · simp [NsLabel.op, ← hret, hzero, eq_comm]
      · rw [NsLabel.after_of_none fun q => by simp [NsLabel.op, ← hret, hneg], ← ht]
        exact hholds
  | unbind path hnul =>
    have happly' : s.unbind path = some (ret, t) := happly
    cases process with
    | none =>
      have hsame : s.unbind path = some (-1, s) := by rw [unbind, hcur]
      obtain ⟨hret, ht⟩ := Prod.mk.inj (Option.some.inj (hsame.symm.trans happly'))
      rw [NsLabel.after_of_none fun q => by simp [NsLabel.op], ← ht]
      exact h
    | some c =>
      rcases unbind_spec h hcur hnul with ⟨-, u, hu, -, hholds⟩ | ⟨-, hu⟩
      · obtain ⟨hret, ht⟩ := Prod.mk.inj (Option.some.inj (hu.symm.trans happly'))
        rw [NsLabel.after_of_some c (.remove path) fun q => ?_, ← ht]
        · exact hholds
        · simp [NsLabel.op, ← hret, eq_comm]
      · obtain ⟨hret, ht⟩ := Prod.mk.inj (Option.some.inj (hu.symm.trans happly'))
        rw [NsLabel.after_of_none fun q => by simp [NsLabel.op, ← hret], ← ht]
        exact h

theorem NsLabel.replay_snoc (tr : List NsLabel) (l : NsLabel) (es : Nat → List MountEntry) :
    (fun p => Shadow.replay target (bindingOps p (tr ++ [l])) (es p)) =
      l.after fun p => Shadow.replay target (bindingOps p tr) (es p) := by
  funext p
  rw [bindingOps_append, Shadow.replay_append]
  exact l.replay_eq (fun p => Shadow.replay target (bindingOps p tr) (es p)) p

/-- **A run** does to the bindings of each process what its successful calls do to a stack. -/
theorem Namespaces.Holds.run {s t : Namespaces} {es : Nat → List MountEntry} {tr : List NsLabel}
    (h : s.Holds es) (hrun : nsLts.Run s tr t) :
    t.Holds fun p => Shadow.replay target (bindingOps p tr) (es p) := by
  induction hrun with
  | nil => exact h
  | @snoc tr _ _ l _ hstep ih =>
    rw [NsLabel.replay_snoc]
    exact ih.step hstep

/-- An `unbind` that returns -1 changes nothing. -/
theorem unbind_failed {s t : Namespaces} {path : Str} (h : s.unbind path = some (-1, t)) :
    t = s := by
  unfold Namespaces.unbind at h
  cases hc : s.currentProcess with
  | none =>
    rw [hc] at h
    exact (Prod.mk.inj (Option.some.inj h)).2.symm
  | some c =>
    rw [hc] at h
    obtain ⟨found, -, hanswer⟩ := Option.map_eq_some_iff.1 h
    cases found with
    | none => exact (Prod.mk.inj hanswer).2.symm
    | some x => exact absurd (Prod.mk.inj hanswer).1 (by decide)

/-- **`unbind` undoes `bind`.**  After a successful `bind` and any run whose successful calls of
this process have other targets, `unbind` succeeds.

* It takes the binding out and leaves the others; the list is what these calls alone make of
  the first one.
* A second `unbind` succeeds exactly when the first list had a binding with this target.
* The list of another process is changed by its own calls only.
* An `unbind` that returns -1 changes nothing. -/
theorem unbind_undoes_bind {s₀ s₂ : Namespaces} {es : Nat → List MountEntry} {c : Nat}
    {before : UInt8} {e : MountEntry} {tr : List NsLabel} (h : s₀.Holds es)
    (hc : s₀.currentProcess = some c) (hbind : (s₀.bind before e).1 = 0)
    (hrun : nsLts.Run (s₀.bind before e).2 tr s₂) (hback : s₂.currentProcess = some c)
    (htr : ∀ op ∈ bindingOps c tr, op.target target ≠ e.newPath) :
    ∃ s₃, s₂.unbind e.newPath = some (0, s₃) ∧
      Shadow.Between target e (s₂.entries c) (s₃.entries c) ∧
      s₃.entries c = Shadow.replay target (bindingOps c tr) (s₀.entries c) ∧
      ((∃ s₄, s₃.unbind e.newPath = some (0, s₄)) ↔ ∃ b ∈ s₀.entries c, b.newPath = e.newPath) ∧
      (∀ p, p ≠ c → s₃.entries p = Shadow.replay target (bindingOps p tr) (s₀.entries p)) ∧
      ((∀ l ∈ tr, l.process = some c) → ∀ p, p ≠ c → s₃.entries p = s₀.entries p) ∧
      ∀ (s t : Namespaces) (path : Str), s.unbind path = some (-1, t) → t = s := by
  obtain ⟨-, ⟨-, hafter⟩ | ⟨hneg, -⟩⟩ := Namespaces.bind_spec h hc before e
  case inr => exact absurd (hbind.symm.trans hneg) (by decide)
  have hholds := hafter.run hrun
  have hbetween : Shadow.Between target e
      (Shadow.replay target (bindingOps c tr) (e :: es c))
      (Shadow.replay target (bindingOps c tr) (es c)) := Shadow.Between.top.replay htr
  have hentries := Namespaces.entries_eq hholds
  have hzero := Namespaces.entries_eq h
  rcases Namespaces.unbind_spec hholds hback e.new_nul with ⟨-, s₃, hs₃, hcur, hfinal⟩ | ⟨hnot, -⟩
  case inr =>
    refine absurd ?_ hnot
    obtain ⟨as, bs, hcut, -, -⟩ := hbetween
    rw [Function.update_self, hcut]
    exact ⟨e, by simp, rfl⟩
  have hlist : s₃.entries c = Shadow.replay target (bindingOps c tr) (es c) := by
    rw [Namespaces.entries_eq hfinal, Function.update_self, Function.update_self]
    exact Shadow.replay_undo htr
  have hothers : ∀ p, p ≠ c → s₃.entries p = Shadow.replay target (bindingOps p tr) (es p) := by
    intro p hp
    rw [Namespaces.entries_eq hfinal, Function.update_of_ne hp, Function.update_of_ne hp]
  refine ⟨s₃, hs₃, ?_, ?_, ?_, ?_, ?_, fun s t path => unbind_failed⟩
  · rw [hlist, hentries]
    dsimp only
    rw [Function.update_self]
    exact hbetween
  · rw [hlist, hzero]
  · have hhas : Shadow.Has target (s₃.entries c) e.newPath ↔
        Shadow.Has target (es c) e.newPath := by
      rw [hlist]
      exact Shadow.replay_has htr
    rw [hzero]
    refine Iff.trans ?_ hhas
    rw [Namespaces.entries_eq hfinal]
    rcases Namespaces.unbind_spec hfinal hcur e.new_nul with ⟨hmem, s₄, hs₄, -⟩ | ⟨hnot, hs₄⟩
    · exact ⟨fun _ => hmem, fun _ => ⟨s₄, hs₄⟩⟩
    · refine ⟨fun ⟨s₄, hs₄'⟩ => ?_, fun hmem => absurd hmem hnot⟩
      rw [hs₄, Option.some.injEq] at hs₄'
      exact absurd (Prod.mk.inj hs₄').1 (by decide)
  · rw [hzero]
    exact hothers
  · intro hown p hp
    rw [hothers p hp, hzero]
    have hnone : bindingOps p tr = [] := by
      refine List.filterMap_eq_nil_iff.2 ?_
      intro l hl
      rw [NsLabel.op, hown l hl, if_neg]
      exact fun hcase => hp (Option.some.inj hcase.1).symm
    rw [hnone]
    rfl

/-- The binding of `"/tmp"` to itself. -/
def tmpEntry : MountEntry where
  oldPath := tmpDir
  newPath := tmpDir
  old_nul := by unfold NulFree; decide
  new_nul := by unfold NulFree; decide
  flags := 0
  old_lt := by decide
  new_lt := by decide

/-- The kernel after `vfs_init`, with process 0 running. -/
def nsBoot : Namespaces where
  v := vfsInit (fun _ => 0) [slash]
  node := fun _ => { entry := tmpEntry, next := none }
  mounts := fun _ => none
  currentProcess := some 0

/-- `"/tmp"` bound to `"/tmp/"`. -/
def tmpSlashEntry : MountEntry where
  oldPath := tmpDir
  newPath := tmpSlash
  old_nul := by unfold NulFree; decide
  new_nul := by unfold NulFree; decide
  flags := 0
  old_lt := by decide
  new_lt := by decide

/-- What happens until process 0 removes its first binding again: it binds `"/tmp/"`, and process 1
binds `"/tmp"` for itself. -/
def twoBinders : List NsLabel :=
  [{ process := some 0, call := .bind 0 tmpSlashEntry, ret := 0 },
    { process := some 0, call := .schedule (some 1), ret := 0 },
    { process := some 1, call := .bind 0 tmpEntry, ret := 0 },
    { process := some 1, call := .schedule (some 0), ret := 0 }]

/-- Process 0 removes its binding of `"/tmp"`: it has `"/tmp/"` left, and process 1 its own. -/
theorem unbind_undoes_bind_tmp : ∃ s₂ s₃, nsLts.Run (nsBoot.bind 0 tmpEntry).2 twoBinders s₂ ∧
    s₂.unbind tmpDir = some (0, s₃) ∧ s₃.entries 0 = [tmpSlashEntry] ∧
      s₃.entries 1 = [tmpEntry] := by
  have hholds : nsBoot.Holds fun _ => [] := Namespaces.holds_empty (fun _ => rfl) (by decide)
  have hbind : (nsBoot.bind 0 tmpEntry).1 = 0 := by decide +kernel
  obtain ⟨s₁, hs₁⟩ : ∃ s₁, s₁ = ((nsBoot.bind 0 tmpEntry).2.bind 0 tmpSlashEntry).2 := ⟨_, rfl⟩
  obtain ⟨s₂, hs₂⟩ : ∃ s₂, s₂ = ({ s₁ with currentProcess := some 1 }.bind 0 tmpEntry).2 := ⟨_, rfl⟩
  have hcur₀ : (nsBoot.bind 0 tmpEntry).2.currentProcess = some 0 :=
    (Namespaces.bind_spec hholds rfl 0 tmpEntry).1
  have hcur₁ : s₁.currentProcess = some 0 := by
    rw [hs₁]
    decide +kernel
  have hcur₂ : s₂.currentProcess = some 1 := by
    rw [hs₂, hs₁]
    decide +kernel
  have hsecond : ((nsBoot.bind 0 tmpEntry).2.bind 0 tmpSlashEntry).1 = 0 := by decide +kernel
  have hthird : ({ s₁ with currentProcess := some 1 }.bind 0 tmpEntry).1 = 0 := by
    rw [hs₁]
    decide +kernel
  have hrun : nsLts.Run (nsBoot.bind 0 tmpEntry).2 twoBinders
      { s₂ with currentProcess := some 0 } :=
    Lts.run_cons_iff.2 ⟨s₁, ⟨hcur₀, trivial, congrArg some (Prod.ext hsecond hs₁.symm)⟩,
      Lts.run_cons_iff.2 ⟨{ s₁ with currentProcess := some 1 }, ⟨hcur₁, trivial, rfl⟩,
        Lts.run_cons_iff.2 ⟨s₂, ⟨rfl, trivial, congrArg some (Prod.ext hthird hs₂.symm)⟩,
          Lts.run_cons_iff.2 ⟨_, ⟨hcur₂, trivial, rfl⟩, Lts.run_nil_iff.2 rfl⟩⟩⟩⟩
  have hops : bindingOps 0 twoBinders = [.push tmpSlashEntry] := rfl
  have hnone : ∀ p, nsBoot.entries p = [] := congrFun (Namespaces.entries_eq hholds)
  obtain ⟨s₃, hs₃, -, hentries, -, hothers, -⟩ :=
    unbind_undoes_bind hholds rfl hbind hrun rfl fun op hop => by
    rw [hops, List.mem_singleton] at hop
    rw [hop]
    decide
  refine ⟨_, s₃, hrun, hs₃, ?_, ?_⟩
  · rw [hentries, hops, hnone]
    rfl
  · rw [hothers 1 (by decide), hnone]
    rfl

end OsArm
