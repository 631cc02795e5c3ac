import OsArm.Vfs.Sessions

/-!
# Writes and other files

A descriptor holds a slot or an inode number, and both are given away as soon as the file is
unlinked, like the inode's block; `stale_descriptor_writes` shows what follows.

* `stored` — what the VFS stores for a file.
* `Given` — what a descriptor refers to is another file's.
* `write_isolated` — a write changes another file only through a descriptor whose own file was
  unlinked, and whose slot, inode or block was given to that file.
-/

namespace OsArm

/-! ## What is stored for a file -/

/-- The inode that a name has in the root block. -/
def rootEntry (fs : AbyssFs) (name : Str) : Option Nat :=
  (findEntry fs.blocks name walkFuel rootAddr).map fs.blocks.word

/-- The size and the bytes stored for a file, if it exists: the content of its slot, or its data
block. -/
def stored (v : Vfs) : FileName → Option (Nat × List UInt8)
  | .slot path => (findUsed v.ram path).map fun i =>
    ((v.ram.files i).size, memcpyFrom (v.ram.files i).mem contentOff maxContent)
  | .entry name => (rootEntry v.abyss name).map fun i =>
    ((v.abyss.inodes i).size, if (v.abyss.inodes i).blocks = 0 then []
      else memcpyFrom v.abyss.blocks ((v.abyss.inodes i).blocks * blockSize) blockSize)

/-- The slot of the handle, its inode, or the block of its inode is that of the file. -/
def IsOn (v : Vfs) (file : VfsFile) : FileName → Prop
  | .slot path => file.fOps = .ramfs ∧ findUsed v.ram path = some file.privateData
  | .entry name => file.fOps = .abyssfs ∧ ∃ i ∈ rootEntry v.abyss name, i = file.privateData ∨
      (v.abyss.inodes i).blocks ≠ 0 ∧
        (v.abyss.inodes i).blocks = (v.abyss.inodes file.privateData).blocks

/-- What the descriptor refers to is the file's. -/
def Given (v : Vfs) (fd : Nat) (q : FileName) : Prop := ∃ file ∈ getFile v fd, IsOn v file q

/-! ## Isolation -/

section Stored

variable {v v' : Vfs} {rs : List DirRecord} {name path : Str}

/-- The path of a slot, or the name of an entry, is a C string. -/
def FileName.NulFree : FileName → Prop
  | slot path => OsArm.NulFree path
  | entry name => OsArm.NulFree name

theorem FilePath.file_nulFree (p : FilePath) : p.file.NulFree := by
  unfold FilePath.file
  split
  · exact nulFree_fullPath p.nul_free
  · exact p.basename_nulFree

/-- The inode of an entry is in use. -/
theorem RootKept.rootEntry_spec (h : RootKept v.abyss rs) (hn : NulFree name) {i : Nat}
    (hi : i ∈ rootEntry v.abyss name) :
    (v.abyss.inodes i).mode ≠ 0 ∧ i ≠ 0 ∧ (i = 1 ∨ ∃ r ∈ rs, r.inode = i ∧ r.name = name) := by
  rw [rootEntry, h.findEntry_word hn] at hi
  obtain ⟨e, he, rfl⟩ := Option.map_eq_some_iff.1 hi
  have hname : e.name = name := by simpa using List.find?_some he
  have hroot : (v.abyss.inodes 1).mode ≠ 0 := by
    rw [h.own.root.1]
    decide
  rcases List.mem_cons.1 (List.mem_of_find?_eq_some he) with rfl | he
  · exact ⟨hroot, Nat.one_ne_zero, Or.inl rfl⟩
  · rcases List.mem_cons.1 he with rfl | he
    · exact ⟨hroot, Nat.one_ne_zero, Or.inl rfl⟩
    · obtain ⟨r, hr, rfl⟩ := List.mem_map.1 he
      obtain ⟨h2, -, hmode⟩ := h.live r hr
      have hne : r.inode ≠ 0 := by omega
      exact ⟨hmode, hne, Or.inr ⟨r, hr, rfl, hname⟩⟩

/-- What is stored for an entry depends on the entries, and on its inode and its block. -/
theorem stored_entry_congr (h : RootKept v.abyss rs) (h' : RootKept v'.abyss rs) (hn : NulFree name)
    (hinode : ∀ i ∈ rootEntry v.abyss name, v'.abyss.inodes i = v.abyss.inodes i ∧
      ((v.abyss.inodes i).blocks ≠ 0 → ∀ x < blockSize,
        v'.abyss.blocks ((v.abyss.inodes i).blocks * blockSize + x) =
          v.abyss.blocks ((v.abyss.inodes i).blocks * blockSize + x))) :
    stored v' (.entry name) = stored v (.entry name) := by
  have hsame : rootEntry v'.abyss name = rootEntry v.abyss name := by
    rw [rootEntry, rootEntry, h.findEntry_word hn, h'.findEntry_word hn]
  rw [stored, stored, hsame]
  cases hi : rootEntry v.abyss name with
  | none => rfl
  | some i =>
    obtain ⟨hnode, hblock⟩ := hinode i hi
    rw [Option.map_some, Option.map_some, hnode]
    split
    case isTrue => rfl
    case isFalse hb =>
      have hbytes : memcpyFrom v'.abyss.blocks ((v.abyss.inodes i).blocks * blockSize) blockSize =
          memcpyFrom v.abyss.blocks ((v.abyss.inodes i).blocks * blockSize) blockSize :=
        List.map_congr_left fun x hx => hblock hb x (List.mem_range.1 hx)
      rw [hbytes]

/-- What is stored for a slot's path depends on the paths of the slots, and on the slot. -/
theorem stored_slot_congr (hnul : NulFree path)
    (hpaths : ∀ i, HoldsPath v'.ram i path ↔ HoldsPath v.ram i path)
    (hslot : ∀ i, findUsed v.ram path = some i → v'.ram.files i = v.ram.files i) :
    stored v' (.slot path) = stored v (.slot path) := by
  rw [stored, stored, findUsed_congr hnul hpaths]
  cases hfind : findUsed v.ram path with
  | none => rfl
  | some i => rw [Option.map_some, Option.map_some, hslot i hfind]

/-- The paths of the slots are what their first 32 bytes say. -/
theorem ShortPaths.holdsPath_iff {ram ram' : RamFs} (h : ShortPaths ram) (hnul : NulFree path)
    (hused : ∀ i, (ram'.files i).used = (ram.files i).used)
    (hmem : ∀ i, ∀ x < maxPath, (ram'.files i).mem x = (ram.files i).mem x) (i : Nat) :
    HoldsPath ram' i path ↔ HoldsPath ram i path := by
  unfold HoldsPath
  rw [hused]
  refine and_congr_right fun hi => ?_
  obtain ⟨q, hq, hlen, hs⟩ := h i hi
  have hs' := cstringAt_of_prefix hs hlen (hmem i)
  constructor
  · intro hpath
    rwa [hpath.unique hs' hnul hq]
  · intro hpath
    rwa [hpath.unique hs hnul hq]

end Stored

section Write

variable {t : Session} {rs : List DirRecord} {fd : Nat} {file : VfsFile} {q : FileName}
  {buf : List UInt8}

/-- A write changes what is stored for the files that the handle is on only. -/
theorem SessionInv.stored_write (h : SessionInv t rs) (hbuf : buf.length + maxContent < 2 ^ 64)
    (hq : q.NulFree) (hgiven : ¬ Given t.v fd q) :
    stored (vfsWrite t.v fd buf).2 q = stored t.v q := by
  have h' : SessionInv ((VfsCall.write fd buf).apply t) rs := h.write hbuf
  simp only [VfsCall.apply] at h'
  unfold vfsWrite at h' ⊢
  cases hget : getFile t.v fd with
  | none => rfl
  | some file =>
    have hok := h.handles fd file (getFile_eq_some hget)
    have hoff : ¬ IsOn t.v file q := fun hon => hgiven ⟨file, hget, hon⟩
    rw [hget] at h'
    dsimp only at h' ⊢
    cases hops : file.fOps with
    | ramfs =>
      cases q with
      | entry name => rfl
      | slot path =>
        have hpos := hok.position hops
        obtain ⟨-, -, -, hother, hused, hout⟩ :=
          ramfsWrite_frame hpos (by omega : file.fPos + buf.length < 2 ^ 64)
        refine stored_slot_congr hq
          (h.slots.holdsPath_iff hq hused fun i x hx => hout i x (Or.inl hx)) ?_
        intro i hi
        refine hother i ?_
        rintro rfl
        exact hoff ⟨hops, hi⟩
    | abyssfs =>
      rw [hops] at h'
      cases q with
      | slot path => rfl
      | entry name =>
        obtain ⟨hother, -, hblocks⟩ := h.root.own.write_frame (hok.not_root hops) buf
        refine stored_entry_congr h.root h'.root hq fun i hi => ?_
        obtain ⟨hmode, -⟩ := h.root.rootEntry_spec hq hi
        have hne : i ≠ file.privateData := fun heq => hoff ⟨hops, i, hi, Or.inl heq⟩
        refine ⟨hother i hne, fun hb x hx => ?_⟩
        dsimp only
        rcases hblocks with heq | ⟨b, -, hout, hwhose⟩
        · rw [heq]
        · have hbne : (t.v.abyss.inodes i).blocks ≠ b := by
            rcases hwhose with rfl | hfree
            · exact fun heq => hoff ⟨hops, i, hi, Or.inr ⟨hb, heq⟩⟩
            · exact hfree i (Or.inl hmode)
          refine hout _ ?_
          rcases Nat.lt_or_gt_of_ne hbne with hlt | hgt
          · have hle := Nat.mul_le_mul_right blockSize (Nat.succ_le_of_lt hlt)
            rw [Nat.succ_mul] at hle
            omega
          · have hle : (b + 1) * blockSize ≤ (t.v.abyss.inodes i).blocks * blockSize :=
              Nat.mul_le_mul_right blockSize hgt
            omega

/-- As long as its file was not unlinked, a descriptor is on no other. -/
theorem SessionInv.unlinked_of_given (h : SessionInv t rs) {p : FilePath}
    (hp : t.origin fd = some p) (hq : q.NulFree) (hne : q ≠ p.file) (hgiven : Given t.v fd q) :
    t.unlinked fd = true := by
  obtain ⟨file, hget, hon⟩ := hgiven
  have hok := h.handles fd file (getFile_eq_some hget)
  rw [← Bool.not_eq_false]
  intro hb
  have hrefers := hok.refers hb p hp
  cases q with
  | slot path =>
    obtain ⟨hops, hfind⟩ := hon
    obtain ⟨-, hholds⟩ := findUsed_eq_some hq hfind
    rcases hrefers with ⟨hops', -⟩ | hrefers
    · rw [hops] at hops'
      cases hops'
    · cases hfile : p.file with
      | entry name =>
        rw [hfile] at hrefers
        exact absurd (hops.symm.trans hrefers.1) (by decide)
      | slot path' =>
        rw [hfile] at hrefers hne
        obtain ⟨-, hnul, -, hholds'⟩ := hrefers
        exact hne (congrArg _ (hholds.2.unique hholds'.2 hq hnul))
  | entry name =>
    obtain ⟨hops, i, hi, hshared⟩ := hon
    obtain ⟨hmode, hzero, hentry⟩ := h.root.rootEntry_spec hq hi
    have hroot := hok.not_root hops
    -- the handle's inode is in use too, and another one
    have hown : ∀ k, Live t.v.abyss k → k = file.privateData → i ≠ k → False := by
      rintro k hlive rfl hik
      rcases hshared with heq | ⟨hb, heq⟩
      · exact hik heq
      · exact h.root.own.exclusive i _ hik (Or.inl hmode) hlive hb heq
    rcases hrefers with ⟨-, hopened⟩ | hrefers
    · exact hown 0 (Or.inr rfl) hopened.symm hzero
    · cases hfile : p.file with
      | slot path =>
        rw [hfile] at hrefers
        exact absurd (hops.symm.trans hrefers.1) (by decide)
      | entry name' =>
        rw [hfile] at hrefers hne
        obtain ⟨-, r, hr, hinode, hname⟩ := hrefers
        refine hown r.inode (Or.inl (h.root.live r hr).2.2) hinode fun hir => ?_
        rcases hentry with rfl | ⟨r', hr', hinode', hname'⟩
        · exact hroot (hinode.symm.trans hir.symm)
        · have hrr : r' = r := List.inj_on_of_nodup_map h.root.nodup hr' hr (hinode'.trans hir)
          exact hne (congrArg _ (by rw [← hname', ← hname, hrr]))

end Write

/-- **Isolation.**  In every reachable state, a write through a descriptor that was obtained for
the path `p` changes what is stored for a file only if the descriptor refers to the file's slot,
inode or block; if the file is another one than that of `p`, then that of `p` was unlinked since.
The write stays inside the content of its slot. -/
theorem write_isolated (m : ByteMem) {cwd : Str} (hcwd : NulFree cwd) {t : Session}
    (h : vfsLts.Reachable (Session.init m cwd) t) {fd : Nat} {p : FilePath}
    (hp : t.origin fd = some p) {buf : List UInt8} (hbuf : buf.length + maxContent < 2 ^ 64) :
    (∀ q : FilePath, ¬ Given t.v fd q.file →
      stored (vfsWrite t.v fd buf).2 q.file = stored t.v q.file) ∧
    (∀ q : FilePath, q.file ≠ p.file → Given t.v fd q.file → t.unlinked fd = true) ∧
    ∀ i x, x < contentOff ∨ contentOff + maxContent ≤ x →
      ((vfsWrite t.v fd buf).2.ram.files i).mem x = (t.v.ram.files i).mem x := by
  obtain ⟨rs, hinv⟩ := session_invariant hcwd h
  refine ⟨fun q hgiven => hinv.stored_write hbuf q.file_nulFree hgiven,
    fun q hne hgiven => hinv.unlinked_of_given hp q.file_nulFree hne hgiven, ?_⟩
  intro i x hx
  unfold vfsWrite
  cases hget : getFile t.v fd with
  | none => rfl
  | some file =>
    have hok := hinv.handles fd file (getFile_eq_some hget)
    dsimp only
    cases hops : file.fOps with
    | abyssfs => rfl
    | ramfs =>
      have hpos := hok.position hops
      exact (ramfsWrite_frame hpos (by omega : file.fPos + buf.length < 2 ^ 64)).2.2.2.2.2 i x hx

/-- A descriptor for `/tmp/a`, the file being unlinked and its slot given to `/tmp/b`: a write
through the descriptor changes `/tmp/b`. -/
theorem stale_descriptor_writes :
    let a : FilePath := ⟨tmpSlash ++ str ['a'], rfl, by decide, by unfold NulFree; decide⟩
    let b : FilePath := ⟨tmpSlash ++ str ['b'], rfl, by decide, by unfold NulFree; decide⟩
    let s := [VfsCall.create a, .unlink a, .create b].foldl VfsCall.apply
      (Session.init (fun _ => 0) [slash])
    (s.origin 0).map FilePath.bytes = some a.bytes ∧ a.file ≠ b.file ∧
      (stored s.v b.file).map Prod.fst = some 0 ∧
      (stored (vfsWrite s.v 0 [1]).2 b.file).map Prod.fst = some 1 := by
  decide +kernel

/-- There, with `/tmp/c` in place too: `/tmp/c` stays as it is, and `/tmp/a` was unlinked. -/
theorem write_isolated_reused :
    let a : FilePath := ⟨tmpSlash ++ str ['a'], rfl, by decide, by unfold NulFree; decide⟩
    let b : FilePath := ⟨tmpSlash ++ str ['b'], rfl, by decide, by unfold NulFree; decide⟩
    let c : FilePath := ⟨tmpSlash ++ str ['c'], rfl, by decide, by unfold NulFree; decide⟩
    let t := [VfsCall.create a, .create c, .unlink a, .create b].foldl VfsCall.apply
      (Session.init (fun _ => 0) [slash])
    stored (vfsWrite t.v 0 [1]).2 c.file = stored t.v c.file ∧ t.unlinked 0 = true := by
  intro a b c t
  have hcreate : ∀ s p, p = a ∨ p = b ∨ p = c →
      vfsLts.step s (VfsCall.create p) ((VfsCall.create p).apply s) := by
    refine fun s p hp => ⟨?_, rfl⟩
    simp only [VfsCall.Allowed]
    rcases hp with rfl | rfl | rfl
    · rw [if_pos (by decide)]
      decide
    · rw [if_pos (by decide)]
      decide
    · rw [if_pos (by decide)]
      decide
  have hunlink : ∀ s, vfsLts.step s (VfsCall.unlink a) ((VfsCall.unlink a).apply s) :=
    fun s => ⟨Or.inl (by decide), rfl⟩
  have hreach : vfsLts.Reachable (Session.init (fun _ => 0) [slash]) t :=
    ((((Lts.Reachable.refl _).tail (hcreate _ a (Or.inl rfl))).tail
    (hcreate _ c (Or.inr (Or.inr rfl)))).tail
      (hunlink _)).tail (hcreate _ b (Or.inr (Or.inl rfl)))
  have hcwd : NulFree [slash] := by unfold NulFree; decide
  have hbuf : ([1] : List UInt8).length + maxContent < 2 ^ 64 := by decide
  have horigin : t.origin 0 = some a := by
    have hbytes : (t.origin 0).map FilePath.bytes = some a.bytes := by decide +kernel
    obtain ⟨p, hp, hpa⟩ := Option.map_eq_some_iff.1 hbytes
    rw [hp, FilePath.ext hpa]
  obtain ⟨hkeep, hgiven, -⟩ := write_isolated (fun _ => 0) hcwd hreach horigin hbuf
  have hfile : ∃ file, getFile t.v 0 = some file ∧ file.fOps = .ramfs ∧ file.privateData = 0 := by
    refine ⟨{ fOps := .ramfs, privateData := 0, fPos := 0 }, by decide +kernel, rfl, rfl⟩
  obtain ⟨file, hget, hops, hslot⟩ := hfile
  refine ⟨hkeep c ?_, hgiven b (by decide) ⟨file, hget, hops, ?_⟩⟩
  · rintro ⟨g, hg, -, hon⟩
    obtain rfl : file = g := Option.some.inj (hget.symm.trans hg)
    rw [hslot] at hon
    revert hon
    decide +kernel
  · rw [hslot]
    decide +kernel

end OsArm
