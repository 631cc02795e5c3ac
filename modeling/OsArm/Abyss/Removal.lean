import OsArm.Abyss.Growth
import OsArm.Abyss.Survival

/-!
# Recursive removal of a subtree

`abyssfs_remove_recursive` of a directory of a well-formed tree.  For every entry of the
listing it puts the path of the entry together and hands it, at last, to `abyssfs_unlink`,
which looks among the records of the root for one with the whole path as its name.  No record
of the root has a slash in its name.

* `PathsFit` — no path that a removal puts together overruns `full_path`.
* `WellFormed.removeRecursive_eq`, `WellFormed.fits_of_removeRecursive` — a removal ends if and
  only if the paths fit, and all that it does is its last `abyssfs_unlink`.
* `RemovesSubtree` — the removal ends, and if it answers 0 the subtree is gone and the rest is
  as it was.
* `removesSubtree_iff` — that is so exactly when the paths fit and a directory that is named
  like an entry of the root is empty.
-/

namespace OsArm

/-! ## Paths and subtrees -/

/-- The path without its leading slashes. -/
def VfsPath.strip (p : VfsPath) : Str := p.bytes.dropWhile (· = slash)

/-- The paths that a removal of the directory `d` puts together, at any depth, fit
`full_path`.  A listing has 256 records, two of them the directory's own. -/
inductive PathsFit (dirs : Dirs) : Str → Nat → Prop
  | dir {path : Str} {d : Nat} {rs : List DirRecord} (hd : dirs d = some rs)
      (hlen : ∀ r ∈ rs.take 254, (path ++ [slash] ++ r.name).length < vfsMaxPath)
      (hsub : ∀ r ∈ rs.take 254, (dirs r.inode).isSome →
        PathsFit dirs (path ++ [slash] ++ r.name) r.inode) : PathsFit dirs path d

/-- The inodes of the subtree at `d`. -/
inductive Below (dirs : Dirs) (d : Nat) : Nat → Prop
  | root : Below dirs d d
  | entry {c : Nat} {r : DirRecord} (hc : Below dirs d c) (hr : Entry dirs c r) :
      Below dirs d r.inode

/-- **The subtree at `d`, which `p` leads to, is gone**, and the rest is as it was. -/
structure SubtreeRemoved (fs fs' : AbyssFs) (dirs : Dirs) (p : VfsPath) (d : Nat) : Prop where
  path : getInodeByPath fs' p.bytes = none
  inode : ∀ i, Below dirs d i → (fs'.inodes i).mode = 0
  block : ∀ i, Below dirs d i → (fs.inodes i).blocks ≠ 0 →
    fs'.blockBitmap.getLsbD (fs.inodes i).blocks = false
  /-- The other directories keep their entries, but for the one that refers to `d`. -/
  entries : ∀ c rs, ¬ Below dirs d c → dirs c = some rs →
    DirAt fs' c (rs.filter (·.inode ≠ d))
  inodes : ∀ i, ¬ Below dirs d i → fs'.inodes i = fs.inodes i
  bits : ∀ b, (∀ i, Below dirs d i → (fs.inodes i).blocks ≠ b) →
    fs'.blockBitmap.getLsbD b = fs.blockBitmap.getLsbD b
  /-- So do all blocks but the one of the directory that loses the entry. -/
  bytes : ∀ b, (∀ i, Below dirs d i → (fs.inodes i).blocks ≠ b) →
    (∀ c r, Entry dirs c r → r.inode = d → (fs.inodes c).blocks ≠ b) →
    ∀ x, b * blockSize ≤ x → x < b * blockSize + blockSize → fs'.blocks x = fs.blocks x

/-- **What recursive removal promises** for the directory `d`: it ends, and if it answers 0
the subtree is gone. -/
def RemovesSubtree (fs : AbyssFs) (dirs : Dirs) (p : VfsPath) (d : Nat) : Prop :=
  ∃ fuel x, (∀ n, fuel ≤ n → abyssfsRemoveRecursive n fs p.bytes = some x) ∧
    (x.1 = 0 → SubtreeRemoved fs x.2 dirs p d)

/-! ## Steps that change nothing -/

section Fold

variable {σ α : Type*} {f : σ → α → Option σ} {s t : σ} {as : List α}

theorem foldlM_eq_self (h : ∀ a ∈ as, f s a = some s) : as.foldlM f s = some s := by
  induction as with
  | nil => rfl
  | cons a as ih =>
    rw [List.foldlM_cons, h a List.mem_cons_self]
    exact ih fun b hb => h b (List.mem_cons_of_mem _ hb)

/-- A loop whose steps change nothing where they end ends only if each step does. -/
theorem of_foldlM_eq_some (h : ∀ a ∈ as, ∀ u, f s a = some u → u = s)
    (hfold : as.foldlM f s = some t) : t = s ∧ ∀ a ∈ as, f s a = some s := by
  induction as with
  | nil =>
    cases hfold
    exact ⟨rfl, by simp⟩
  | cons a as ih =>
    rw [List.foldlM_cons] at hfold
    obtain ⟨u, hu, hfold⟩ := Option.bind_eq_some_iff.1 hfold
    have hus := h a List.mem_cons_self u hu
    rw [hus] at hu hfold
    obtain ⟨ht, has⟩ := ih (fun b hb => h b (List.mem_cons_of_mem _ hb)) hfold
    exact ⟨ht, List.forall_mem_cons.2 ⟨hu, has⟩⟩

end Fold

/-- A path that leads to another directory than the root is not only slashes. -/
theorem VfsPath.strip_ne_nil {dirs : Dirs} {p : VfsPath} {d : Nat} (hp : p.Leads dirs d)
    (h1 : d ≠ 1) : p.strip ≠ [] := by
  intro hnil
  unfold VfsPath.Leads at hp
  rw [← tokens_dropWhile, show p.bytes.dropWhile (· = slash) = [] from hnil, tokens_nil,
    resolve_nil] at hp
  exact h1 (Option.some.inj hp).symm

/-- The path of an entry of the directory at `p`. -/
def VfsPath.entry (p : VfsPath) (r : DirRecord)
    (hlen : (p.bytes ++ [slash] ++ r.name).length < vfsMaxPath) : VfsPath where
  bytes := p.bytes ++ [slash] ++ r.name
  nul_free := by
    intro hmem
    rcases List.mem_append.1 hmem with hmem | hmem
    · rcases List.mem_append.1 hmem with hmem | hmem
      · exact p.nul_free hmem
      · exact absurd hmem (by decide)
    · exact r.name_nul hmem
  length_lt := hlen

/-- It has a slash inside. -/
theorem VfsPath.slash_mem_entry {p : VfsPath} (hne : p.strip ≠ []) (name : Str) :
    slash ∈ (p.bytes ++ [slash] ++ name).dropWhile (· = slash) := by
  rw [List.append_assoc, dropWhile_append_of_ne_nil hne]
  simp

theorem VfsPath.entry_strip_ne_nil {p : VfsPath} {r : DirRecord} (hne : p.strip ≠ [])
    (hlen : (p.bytes ++ [slash] ++ r.name).length < vfsMaxPath) : (p.entry r hlen).strip ≠ [] :=
  List.ne_nil_of_mem (VfsPath.slash_mem_entry hne r.name)

/-- Looking a name up among different names. -/
theorem find?_name {rs : List DirRecord} {r : DirRecord} (hnodup : (rs.map DirRecord.name).Nodup)
    (hr : r ∈ rs) : rs.find? (·.name = r.name) = some r := by
  induction rs with
  | nil => cases hr
  | cons q rs ih =>
    rw [List.map_cons, List.nodup_cons] at hnodup
    rcases List.mem_cons.1 hr with rfl | hr
    · exact List.find?_cons_of_pos (by simp)
    · have hne : q.name ≠ r.name := fun heq => hnodup.1 (heq ▸ List.mem_map_of_mem hr)
      rw [List.find?_cons_of_neg (by simpa using hne)]
      exact ih hnodup.2 hr

/-! ## Removals inside the tree -/

namespace WellFormed

variable {fs : AbyssFs} {dirs : Dirs} {c d : Nat} {rs us ts : List DirRecord} {r : DirRecord}
  {p : VfsPath} {path : Str}

/-- The records of the root. -/
theorem rootDir (h : WellFormed fs dirs) (hd : dirs 1 = some rs) : RootDir fs.blocks rs := by
  have hblock := (h.stores.dir 1 rs hd).block
  rw [h.stores.root.2] at hblock
  exact RootDir.of_block hblock

/-- A name means what the entry of the name refers to. -/
theorem look_entry (h : WellFormed fs dirs) (hd : dirs d = some rs) (hr : r ∈ rs) :
    look dirs d r.name = some r.inode := by
  obtain ⟨n, hn⟩ := h.name d r ⟨rs, hd, hr⟩
  have hdot : str ['.'] ≠ r.name := fun heq => n.ne_dot (hn.trans heq.symm)
  have hdotdot : str ['.', '.'] ≠ r.name := fun heq => n.ne_dotdot (hn.trans heq.symm)
  have hfind : (rs.map DirRecord.toDirent).find? (·.name = r.name) = some r.toDirent := by
    rw [List.find?_map]
    exact congrArg (Option.map DirRecord.toDirent) (find?_name (h.names d rs hd) hr)
  rw [look, hd, Option.bind_some, dirents, List.find?_cons_of_neg (by simpa using hdot),
    List.find?_cons_of_neg (by simpa using hdotdot), hfind]
  rfl

/-- The path of an entry leads to its inode. -/
theorem leads_entry (h : WellFormed fs dirs) (hp : p.Leads dirs d) (hd : dirs d = some rs)
    (hr : r ∈ rs) (hlen : (p.bytes ++ [slash] ++ r.name).length < vfsMaxPath) :
    (p.entry r hlen).Leads dirs r.inode := by
  obtain ⟨n, hn⟩ := h.name d r ⟨rs, hd, hr⟩
  have htokens : tokens (p.bytes ++ [slash] ++ r.name) = tokens p.bytes ++ [r.name] := by
    rw [List.append_assoc, List.singleton_append, tokens_append,
      ← hn, tokens_name n.nonempty n.no_slash]
  unfold VfsPath.Leads VfsPath.entry at *
  rw [htokens, resolve_append, hp, Option.bind_some, resolve_cons, h.look_entry hd hr]
  rfl

/-- `abyssfs_unlink` of a path with a slash inside finds nothing. -/
theorem unlink_slash (h : WellFormed fs dirs) (hnul : NulFree path)
    (hslash : slash ∈ path.dropWhile (· = slash)) : abyssfsUnlink fs path = (-1, fs) := by
  obtain ⟨rs, hroot⟩ := Option.isSome_iff_exists.1 h.stores.root.1
  have hne : ∀ s : Str, slash ∉ s → path.dropWhile (· = slash) ≠ s := by
    intro s hs heq
    exact hs (heq ▸ hslash)
  refine (h.rootDir hroot).unlink_none rfl
    (fun hmem => hnul ((List.dropWhile_sublist _).mem hmem))
    ⟨hne _ (by decide), hne _ (by decide)⟩ ?_
  intro r hr heq
  obtain ⟨n, hn⟩ := h.name 1 r ⟨rs, hroot, hr⟩
  exact hne r.name (hn ▸ n.no_slash) heq.symm

/-- What a removal does with one entry: nothing, or its recursive call. -/
theorem removeStep_entry (h : WellFormed fs dirs) (hd : dirs d = some rs) (hr : r ∈ rs)
    (hne : p.strip ≠ []) (remove : AbyssFs → Str → Option (Int × AbyssFs)) :
    removeStep remove p.bytes fs r.toDirent =
      if (p.bytes ++ [slash] ++ r.name).length ≥ vfsMaxPath then none
      else if (dirs r.inode).isSome then (remove fs (p.bytes ++ [slash] ++ r.name)).map Prod.snd
      else some fs := by
  obtain ⟨n, hn⟩ := h.name d r ⟨rs, hd, hr⟩
  have hdots : ¬ (r.name = str ['.'] ∨ r.name = str ['.', '.']) := by
    rintro (heq | heq)
    · exact n.ne_dot (hn.trans heq)
    · exact n.ne_dotdot (hn.trans heq)
  have hget : getInode fs r.inode = some (fs.inodes r.inode) :=
    getInode_of_lt ((h.stores.dir d rs hd).inode_lt r hr)
  have hkind := h.kind d r ⟨rs, hd, hr⟩
  have hname : r.toDirent.name = r.name := rfl
  have hinode : r.toDirent.inode = r.inode := rfl
  unfold removeStep
  rw [hname, hinode, if_neg hdots]
  by_cases hlen : (p.bytes ++ [slash] ++ r.name).length ≥ vfsMaxPath
  · rw [if_pos hlen, if_pos hlen]
  · have hunlink : abyssfsUnlink fs (p.bytes ++ [slash] ++ r.name) = (-1, fs) :=
      h.unlink_slash (p.entry r (Nat.lt_of_not_le hlen)).nul_free (VfsPath.slash_mem_entry hne _)
    rw [if_neg hlen, if_neg hlen, hget, hunlink]
    dsimp only
    by_cases hdir : (dirs r.inode).isSome
    · rw [if_pos (hkind.2 hdir), if_pos hdir]
    · rw [if_neg fun hmode => hdir (hkind.1 hmode), if_neg hdir]

/-- The listing that a removal goes through. -/
theorem listing (h : WellFormed fs dirs) (hp : p.Leads dirs d) (hd : dirs d = some rs) :
    (abyssfsReadDir fs p.bytes 256).getD [] =
      { inode := d, name := str ['.'] } :: { inode := 1, name := str ['.', '.'] } ::
        (rs.take 254).map DirRecord.toDirent := by
  rw [h.stores.readDir_path hp hd, Option.getD_some, dirents, List.take_succ_cons,
    List.take_succ_cons, List.map_take]

/-- **All that a removal does is its last `abyssfs_unlink`.** -/
theorem removeRecursive_eq (h : WellFormed fs dirs) {fuel : Nat} (hp : p.Leads dirs d)
    (hne : p.strip ≠ []) (hfit : PathsFit dirs p.bytes d)
    (hfuel : vfsMaxPath ≤ p.bytes.length + fuel) :
    abyssfsRemoveRecursive fuel fs p.bytes = some (abyssfsUnlink fs p.bytes) := by
  generalize hpath : p.bytes = path at hfit
  induction hfit generalizing p fuel with
  | @dir path d rs hd hlen hsub ih =>
    subst hpath
    obtain ⟨fuel, rfl⟩ : ∃ f, fuel = f + 1 := ⟨fuel - 1, by have := p.length_lt; omega⟩
    rw [abyssfsRemoveRecursive_succ, foldlM_eq_self, Option.map_some]
    rw [h.listing hp hd]
    intro e he
    rcases List.mem_cons.1 he with rfl | he
    · exact if_pos (Or.inl rfl)
    rcases List.mem_cons.1 he with rfl | he
    · exact if_pos (Or.inr rfl)
    obtain ⟨r, hr, rfl⟩ := List.mem_map.1 he
    have hmem := List.mem_of_mem_take hr
    rw [h.removeStep_entry hd hmem hne, if_neg (Nat.not_le.2 (hlen r hr))]
    split
    case isFalse => rfl
    case isTrue hdir =>
      have hslash := VfsPath.slash_mem_entry hne r.name
      -- the path of the entry is longer, so less fuel is enough
      have hrec : abyssfsRemoveRecursive fuel fs (p.entry r (hlen r hr)).bytes =
          some (abyssfsUnlink fs (p.entry r (hlen r hr)).bytes) := by
        refine ih r hr hdir (h.leads_entry hp hd hmem (hlen r hr))
          (VfsPath.entry_strip_ne_nil hne (hlen r hr)) ?_ rfl
        simp only [VfsPath.entry, List.length_append, List.length_singleton]
        omega
      rw [show p.bytes ++ [slash] ++ r.name = (p.entry r (hlen r hr)).bytes from rfl, hrec,
        h.unlink_slash (p.entry r (hlen r hr)).nul_free hslash]
      rfl

/-- **A removal that ends puts no path together that is too long**, and does nothing before
its last `abyssfs_unlink`. -/
theorem fits_of_removeRecursive (h : WellFormed fs dirs) {fuel : Nat} {x : Int × AbyssFs}
    (hp : p.Leads dirs d) (hne : p.strip ≠ []) (hd : dirs d = some rs)
    (hx : abyssfsRemoveRecursive fuel fs p.bytes = some x) :
    PathsFit dirs p.bytes d ∧ x = abyssfsUnlink fs p.bytes := by
  induction fuel generalizing p d rs x with
  | zero => cases hx
  | succ fuel ih =>
    rw [abyssfsRemoveRecursive_succ, Option.map_eq_some_iff] at hx
    obtain ⟨t, hfold, rfl⟩ := hx
    rw [h.listing hp hd] at hfold
    have hstep : ∀ r ∈ rs.take 254, ∀ u,
        removeStep (abyssfsRemoveRecursive fuel) p.bytes fs r.toDirent = some u →
        (p.bytes ++ [slash] ++ r.name).length < vfsMaxPath ∧ u = fs ∧
          ((dirs r.inode).isSome → PathsFit dirs (p.bytes ++ [slash] ++ r.name) r.inode) := by
      intro r hr u hu
      have hmem := List.mem_of_mem_take hr
      have hslash := VfsPath.slash_mem_entry hne r.name
      rw [h.removeStep_entry hd hmem hne] at hu
      split at hu
      · cases hu
      · next hlen =>
        have hlen := Nat.lt_of_not_le hlen
        split at hu
        · next hdir =>
          obtain ⟨qs, hqs⟩ := Option.isSome_iff_exists.1 hdir
          obtain ⟨y, hy, rfl⟩ := Option.map_eq_some_iff.1 hu
          obtain ⟨hfit, rfl⟩ := ih (h.leads_entry hp hd hmem hlen)
            (VfsPath.entry_strip_ne_nil hne hlen) hqs hy
          exact ⟨hlen, congrArg Prod.snd (h.unlink_slash (p.entry r hlen).nul_free hslash),
            fun _ => hfit⟩
        · next hdir =>
          cases hu
          exact ⟨hlen, rfl, fun hs => absurd hs hdir⟩
    have hkeep : ∀ e ∈ ({ inode := d, name := str ['.'] } : Dirent) ::
        { inode := 1, name := str ['.', '.'] } :: (rs.take 254).map DirRecord.toDirent, ∀ u,
        removeStep (abyssfsRemoveRecursive fuel) p.bytes fs e = some u → u = fs := by
      intro e he u hu
      rcases List.mem_cons.1 he with rfl | he
      · exact (Option.some.inj ((if_pos (Or.inl rfl)).symm.trans hu)).symm
      rcases List.mem_cons.1 he with rfl | he
      · exact (Option.some.inj ((if_pos (Or.inr rfl)).symm.trans hu)).symm
      obtain ⟨r, hr, rfl⟩ := List.mem_map.1 he
      exact (hstep r hr u hu).2.1
    obtain ⟨rfl, hall⟩ := of_foldlM_eq_some hkeep hfold
    have hentry : ∀ r ∈ rs.take 254, removeStep (abyssfsRemoveRecursive fuel) p.bytes t
        r.toDirent = some t := fun r hr =>
      hall _ (List.mem_cons_of_mem _ (List.mem_cons_of_mem _ (List.mem_map_of_mem hr)))
    exact ⟨.dir hd (fun r hr => (hstep r hr _ (hentry r hr)).1) fun r hr =>
      (hstep r hr _ (hentry r hr)).2.2, rfl⟩

end WellFormed

/-! ## The removal of an entry of the root -/

/-- The directories without the inode `d` and the entries that refer to it. -/
def Dirs.drop (dirs : Dirs) (d : Nat) : Dirs := fun c =>
  if c = d then none else (dirs c).map (List.filter (·.inode ≠ d))

/-- A directory's inode and block go back. -/
theorem DirAt.releaseInode_eq {fs : AbyssFs} {d : Nat} {rs : List DirRecord} (h : DirAt fs d rs) :
    releaseInode fs d =
      freeBlock (fs.setInode d { fs.inodes d with mode := 0 }) (fs.inodes d).blocks := by
  have hpos : 0 < firstDataBlock := by decide
  have hdata := h.data
  rw [releaseInode, getInode_of_lt h.lt]
  exact if_pos (by omega)

/-- The bitmap without the block. -/
theorem getLsbD_freeBlock {fs : AbyssFs} {n : Nat} (hn : n < totalBlocks) (b : Nat) :
    (freeBlock fs n).blockBitmap.getLsbD b =
      (fs.blockBitmap.getLsbD b && !decide (b = n)) := by
  rw [freeBlock, if_pos hn]
  exact BitSet.getLsbD_and_not_bit

/-- **The entry of the directory `d` is taken out of the root**, whose entries are `rs`. -/
structure RootEntryRemoved (fs fs' : AbyssFs) (rs : List DirRecord) (d : Nat) : Prop where
  mode : (fs'.inodes d).mode = 0
  inodes : ∀ i, i ≠ d → fs'.inodes i = fs.inodes i
  bits : ∀ b, fs'.blockBitmap.getLsbD b =
    (fs.blockBitmap.getLsbD b && !decide (b = (fs.inodes d).blocks))
  bytes : ∀ x, x < rootAddr ∨ rootAddr + blockSize ≤ x → fs'.blocks x = fs.blocks x
  root : RootDir fs'.blocks (rs.filter (·.inode ≠ d))

section Root

variable {fs fs' : AbyssFs} {dirs : Dirs} {c d : Nat} {rs qs : List DirRecord} {q r : DirRecord}
  {path : Str}

/-- An entry of the root has its inode and its name to itself. -/
theorem WellFormed.root_entry_unique (h : WellFormed fs dirs) (hroot : dirs 1 = some rs)
    (hr : r ∈ rs) (hq : Entry dirs c q) (heq : q.inode = r.inode) : c = 1 ∧ q = r :=
  h.parent c 1 q r hq ⟨rs, hroot, hr⟩ heq

/-- `abyssfs_unlink` by the name of a directory in the root. -/
theorem WellFormed.unlink_root (h : WellFormed fs dirs) (hroot : dirs 1 = some rs) (hr : r ∈ rs)
    (hd : dirs r.inode = some qs) (hname : path.dropWhile (· = slash) = r.name) :
    (abyssfsUnlink fs path).1 = 0 ∧ RootEntryRemoved fs (abyssfsUnlink fs path).2 rs r.inode := by
  obtain ⟨us, ts, rfl⟩ := List.append_of_mem hr
  obtain ⟨n, hn⟩ := h.name 1 r ⟨_, hroot, hr⟩
  have hdots : r.name ≠ dot.name ∧ r.name ≠ (dotdot false).name := hn ▸ n.ne_dots
  have hnodup := h.names 1 _ hroot
  rw [List.map_append, List.map_cons, List.nodup_middle, List.nodup_cons] at hnodup
  have hmap : ∀ q ∈ us ++ ts, q.name ≠ r.name := by
    intro q hq heq
    rw [← List.map_append] at hnodup
    exact hnodup.1 (heq ▸ List.mem_map_of_mem hq)
  have hcall := (h.rootDir hroot).unlink_some hname hdots fun q hq =>
    hmap q (List.mem_append_left _ hq)
  obtain ⟨hremove, hbytes⟩ :=
    (h.rootDir hroot).remove (Eq.refl (rootAddr + (20 + dirFormat.span us)))
  have hdata := (h.stores.dir _ qs hd).data
  have hrelease := (h.stores.dir _ qs hd).releaseInode_eq
  -- no other entry of the root refers to the directory
  have hother : ∀ q ∈ us ++ ts, q.inode ≠ r.inode := by
    intro q hq heq
    have hmem : q ∈ us ++ r :: ts := by
      rcases List.mem_append.1 hq with hq | hq
      · exact List.mem_append_left _ hq
      · exact List.mem_append_right _ (List.mem_cons_of_mem _ hq)
    exact hmap q hq (congrArg DirRecord.name
      (h.root_entry_unique hroot hr ⟨_, hroot, hmem⟩ heq).2)
  have hfilter : (us ++ r :: ts).filter (·.inode ≠ r.inode) = us ++ ts := by
    rw [List.filter_append, List.filter_cons_of_neg (by simp), ← List.filter_append,
      List.filter_eq_self]
    simpa using hother
  rw [hcall]
  refine ⟨rfl, ?_, ?_, ?_, hbytes, ?_⟩
  · rw [hrelease, freeBlock, if_pos hdata.2]
    exact congrArg Inode.mode setInode_self
  · intro i hi
    exact releaseInode_frame.2 hi
  · intro b
    rw [hrelease]
    exact getLsbD_freeBlock hdata.2 b
  · rw [hfilter]
    exact hremove

/-- **The other directories are stored as before.** -/
theorem RootEntryRemoved.stores (h : WellFormed fs dirs) (hroot : dirs 1 = some rs) (hr : r ∈ rs)
    (hd : (dirs r.inode).isSome) (h1 : r.inode ≠ 1)
    (hremoved : RootEntryRemoved fs fs' rs r.inode) : Stores fs' (dirs.drop r.inode) := by
  have hdrop : ∀ {c l}, dirs.drop r.inode c = some l →
      c ≠ r.inode ∧ ∃ cs, dirs c = some cs ∧ l = cs.filter (·.inode ≠ r.inode) := by
    intro c l hl
    unfold Dirs.drop at hl
    split at hl
    · cases hl
    · next hc =>
      obtain ⟨cs, hcs, rfl⟩ := Option.map_eq_some_iff.1 hl
      exact ⟨hc, cs, hcs, rfl⟩
  have hrootInode := hremoved.inodes 1 (Ne.symm h1)
  refine ⟨⟨?_, ?_⟩, ?_, ?_⟩
  · rw [Dirs.drop, if_neg (Ne.symm h1), hroot]
    rfl
  · rw [hrootInode]
    exact h.stores.root.2
  · intro c l hl
    obtain ⟨hc, cs, hcs, rfl⟩ := hdrop hl
    obtain ⟨hlt, hdir, hdata, htaken, hblock, hentries⟩ := h.stores.dir c cs hcs
    have hinode := hremoved.inodes c hc
    have hapart := h.stores.apart c r.inode hc (by rw [hcs]; rfl) hd
    refine ⟨hlt, ?_, ?_, ?_, ?_, fun q hq => hentries q (List.mem_of_mem_filter hq)⟩
    · rwa [hinode]
    · rwa [hinode]
    · rw [hinode, hremoved.bits, htaken, decide_eq_false hapart]
      rfl
    · by_cases hc1 : c = 1
      · subst hc1
        rw [hroot] at hcs
        cases hcs
        rw [hinode, h.stores.root.2]
        exact hremoved.root.block
      · -- the entry of the directory is in the root and nowhere else
        have hfilter : cs.filter (·.inode ≠ r.inode) = cs := by
          rw [List.filter_eq_self]
          intro q hq
          have hne : q.inode ≠ r.inode := fun heq =>
            hc1 (h.root_entry_unique hroot hr ⟨cs, hcs, hq⟩ heq).1
          simpa using hne
        have hrootBlock := h.stores.apart c 1 hc1 (by rw [hcs]; rfl) (by rw [hroot]; rfl)
        rw [h.stores.root.2] at hrootBlock
        rw [hinode, hfilter]
        refine hblock.frame fun x hx hx' => hremoved.bytes x ?_
        by_contra hin
        rw [not_or, Nat.not_lt, Nat.not_le] at hin
        exact Stores.blocks_disjoint hrootBlock hx hx' (y := x) hin.1 hin.2 rfl
  · intro c c' hne hc hc'
    obtain ⟨l, hl⟩ := Option.isSome_iff_exists.1 hc
    obtain ⟨l', hl'⟩ := Option.isSome_iff_exists.1 hc'
    obtain ⟨hcd, cs, hcs, -⟩ := hdrop hl
    obtain ⟨hcd', cs', hcs', -⟩ := hdrop hl'
    rw [hremoved.inodes c hcd, hremoved.inodes c' hcd']
    exact h.stores.apart c c' hne (by rw [hcs]; rfl) (by rw [hcs']; rfl)

end Root

/-! ## The whole removal -/

theorem below_empty {dirs : Dirs} {d i : Nat} (hd : dirs d = some []) :
    Below dirs d i ↔ i = d := by
  constructor
  · intro hi
    induction hi with
    | root => rfl
    | entry hc hr ih =>
      subst ih
      obtain ⟨rs, hrs, hmem⟩ := hr
      rw [hd] at hrs
      cases hrs
      cases hmem
  · rintro rfl
    exact .root

section Whole

variable {fs : AbyssFs} {dirs : Dirs} {d : Nat} {rs qs : List DirRecord} {q r : DirRecord}
  {p : VfsPath}

/-- A path of one component. -/
theorem look_strip (hp : p.Leads dirs d) (hne : p.strip ≠ []) (hslash : slash ∉ p.strip) :
    look dirs 1 p.strip = some d := by
  have htokens : tokens p.bytes = [p.strip] := by
    rw [← tokens_dropWhile]
    exact tokens_name hne hslash
  unfold VfsPath.Leads at hp
  rw [htokens, resolve_cons] at hp
  obtain ⟨e, he, hres⟩ := Option.bind_eq_some_iff.1 hp
  rw [resolve_nil] at hres
  rw [he]
  exact hres

/-- A path that is the name of an entry of the root leads to its inode. -/
theorem WellFormed.eq_of_strip (h : WellFormed fs dirs) (hp : p.Leads dirs d)
    (hne : p.strip ≠ []) (hr : Entry dirs 1 r) (hname : r.name = p.strip) : d = r.inode := by
  obtain ⟨rs, hroot, hmem⟩ := hr
  obtain ⟨n, hn⟩ := h.name 1 r ⟨rs, hroot, hmem⟩
  have hlook := look_strip hp hne (hname ▸ hn ▸ n.no_slash)
  rw [← hname, h.look_entry hroot hmem] at hlook
  exact (Option.some.inj hlook).symm

/-- The removal of an empty directory of the root. -/
theorem WellFormed.subtreeRemoved (h : WellFormed fs dirs) (hroot : dirs 1 = some rs) (hr : r ∈ rs)
    (hname : r.name = p.strip) (hd : dirs r.inode = some []) (h1 : r.inode ≠ 1) :
    SubtreeRemoved fs (abyssfsUnlink fs p.bytes).2 dirs p r.inode := by
  obtain ⟨-, hremoved⟩ := h.unlink_root hroot hr hd hname.symm
  have hstores := hremoved.stores h hroot hr (by rw [hd]; rfl) h1
  obtain ⟨n, hn⟩ := h.name 1 r ⟨rs, hroot, hr⟩
  have hdrop : dirs.drop r.inode 1 = some (rs.filter (·.inode ≠ r.inode)) := by
    rw [Dirs.drop, if_neg (Ne.symm h1), hroot]
    rfl
  have hlook : look (dirs.drop r.inode) 1 r.name = none := by
    rw [look, hdrop, Option.bind_some, Option.map_eq_none_iff, List.find?_eq_none]
    intro x hx hxr
    have hxr := of_decide_eq_true hxr
    rcases List.mem_cons.1 hx with rfl | hx
    · exact n.ne_dot (hn.trans hxr.symm)
    rcases List.mem_cons.1 hx with rfl | hx
    · exact n.ne_dotdot (hn.trans hxr.symm)
    obtain ⟨q, hq, rfl⟩ := List.mem_map.1 hx
    obtain ⟨hqmem, hqne⟩ := List.mem_filter.1 hq
    have hqr := List.inj_on_of_nodup_map (h.names 1 rs hroot) hqmem hr hxr
    rw [hqr] at hqne
    simp at hqne
  have htokens : tokens p.bytes = [] ++ r.name :: [] := by
    rw [← tokens_dropWhile, show p.bytes.dropWhile (· = slash) = r.name from hname.symm, ← hn,
      tokens_name n.nonempty n.no_slash]
    rfl
  refine ⟨?_, ?_, ?_, ?_, ?_, ?_, ?_⟩
  · exact hstores.getInodeByPath_none p.nul_free (Nat.le_of_lt_succ p.length_lt) htokens
      (resolve_nil _ _) hdrop hlook
  · intro i hi
    rw [(below_empty hd).1 hi]
    exact hremoved.mode
  · intro i hi _
    rw [(below_empty hd).1 hi, hremoved.bits]
    simp
  · intro c cs hc hcs
    have hcd : c ≠ r.inode := fun heq => hc ((below_empty hd).2 heq)
    refine hstores.dir c _ ?_
    rw [Dirs.drop, if_neg hcd, hcs]
    rfl
  · intro i hi
    exact hremoved.inodes i fun heq => hi ((below_empty hd).2 heq)
  · intro b hb
    have hbd : b ≠ (fs.inodes r.inode).blocks := (hb r.inode .root).symm
    rw [hremoved.bits, decide_eq_false hbd]
    simp
  · intro b _ hb x hx hx'
    have hroot' := hb 1 r ⟨rs, hroot, hr⟩ rfl
    rw [h.stores.root.2] at hroot'
    refine hremoved.bytes x ?_
    by_contra hin
    rw [not_or, Nat.not_lt, Nat.not_le] at hin
    exact Stores.blocks_disjoint hroot' hin.1 hin.2 (y := x) hx hx' rfl

/-- What a removal that keeps its promise has been given. -/
theorem WellFormed.of_removesSubtree (h : WellFormed fs dirs) (hp : p.Leads dirs d)
    (hd : (dirs d).isSome) (h1 : d ≠ 1) (hremoves : RemovesSubtree fs dirs p d) :
    PathsFit dirs p.bytes d ∧
      ((∃ r, Entry dirs 1 r ∧ r.name = p.strip) → dirs d = some []) := by
  obtain ⟨qs, hqs⟩ := Option.isSome_iff_exists.1 hd
  have hne := VfsPath.strip_ne_nil hp h1
  obtain ⟨fuel, x, hrun, himp⟩ := hremoves
  obtain ⟨hfit, rfl⟩ := h.fits_of_removeRecursive hp hne hqs (hrun fuel (Nat.le_refl fuel))
  refine ⟨hfit, ?_⟩
  rintro ⟨r, ⟨rs, hroot, hr⟩, hname⟩
  obtain rfl := h.eq_of_strip hp hne ⟨rs, hroot, hr⟩ hname
  obtain ⟨hret, hremoved⟩ := h.unlink_root hroot hr hqs hname.symm
  rw [hqs]
  cases qs with
  | nil => rfl
  | cons q qs =>
    -- an entry of the directory is still in use
    exfalso
    have hq : Entry dirs r.inode q := ⟨_, hqs, List.mem_cons_self⟩
    have hqr : q.inode ≠ r.inode := fun heq => h1 (h.root_entry_unique hroot hr hq heq).1
    have hmode := (himp hret).inode q.inode (.entry .root hq)
    rw [hremoved.inodes q.inode hqr] at hmode
    exact (h.live _ q hq).2 hmode

/-- **Recursive removal keeps its promise** exactly where no path overruns `full_path` and a
directory that is named like an entry of the root is empty. -/
theorem removesSubtree_iff (h : WellFormed fs dirs) (hp : p.Leads dirs d) (hd : (dirs d).isSome)
    (h1 : d ≠ 1) :
    RemovesSubtree fs dirs p d ↔
      PathsFit dirs p.bytes d ∧
        ((∃ r, Entry dirs 1 r ∧ r.name = p.strip) → dirs d = some []) := by
  refine ⟨h.of_removesSubtree hp hd h1, ?_⟩
  rintro ⟨hfit, hempty⟩
  have hne := VfsPath.strip_ne_nil hp h1
  refine ⟨vfsMaxPath, _, fun n hn => h.removeRecursive_eq hp hne hfit (by omega), ?_⟩
  intro hret
  obtain ⟨rs, hroot⟩ := Option.isSome_iff_exists.1 h.stores.root.1
  by_cases hname : ∃ r, Entry dirs 1 r ∧ r.name = p.strip
  · obtain ⟨r, ⟨rs, hroot, hr⟩, hrname⟩ := hname
    obtain rfl := h.eq_of_strip hp hne ⟨rs, hroot, hr⟩ hrname
    exact h.subtreeRemoved hroot hr hrname (hempty ⟨r, ⟨rs, hroot, hr⟩, hrname⟩) h1
  · -- nothing has the name, and the answer is -1
    have hdots : p.strip ≠ dot.name ∧ p.strip ≠ (dotdot false).name := by
      constructor
      · intro heq
        have hlook := look_strip hp hne (heq ▸ by decide)
        rw [heq, look, hroot] at hlook
        exact h1 (Option.some.inj hlook).symm
      · intro heq
        have hlook := look_strip hp hne (heq ▸ by decide)
        rw [heq, look, hroot] at hlook
        exact h1 (Option.some.inj hlook).symm
    have hnone : abyssfsUnlink fs p.bytes = (-1, fs) := (h.rootDir hroot).unlink_none rfl
      (fun hmem => p.nul_free ((List.dropWhile_sublist _).mem hmem)) hdots
      fun r hr heq => hname ⟨r, ⟨rs, hroot, hr⟩, heq⟩
    rw [hnone] at hret
    cases hret

end Whole

/-! ## A directory with an entry -/

theorem wellFormed_init (m : ByteMem) :
    WellFormed (abyssfsInit m) (fun d => if d = 1 then some [] else none) := by
  have hentry : ∀ d r, ¬ Entry (fun d => if d = 1 then some [] else none) d r := by
    rintro d r ⟨rs, hrs, hr⟩
    dsimp only at hrs
    split at hrs
    · cases hrs
      cases hr
    · cases hrs
  refine ⟨stores_init m, ?_, fun d r hr => absurd hr (hentry d r),
    fun d r hr => absurd hr (hentry d r), fun d r hr => absurd hr (hentry d r),
    fun d _ r _ hr => absurd hr (hentry d r)⟩
  intro d rs hrs
  split at hrs
  · cases hrs
    exact List.nodup_nil
  · cases hrs

theorem wellFormed_withA : WellFormed withA dirsA := by
  have halloc := allocInode_init
  have hblock := allocBlock_init
  have hclean := recLen_init
  have hleads : rootPath.Leads (fun d => if d = 1 then some [] else none) 1 := rfl
  have hname : basename (pathA.bytes.dropWhile (· = slash)) = nameA.bytes := rfl
  have hmkdir := (wellFormed_init fun _ => 0).mkdir rootPath_absolute hleads
    (if_pos rfl) hname rfl (by decide) (by rw [halloc]; decide) (by rw [halloc]; decide)
    (by rw [hblock]; decide) (by rw [hblock]; exact hclean)
  rw [← mkdirIn_eq] at hmkdir
  have hinode : ∀ i (hi : i < maxInodes), i = 2 → WellFormed withA (Dirs.put (Function.update
      (fun d => if d = 1 then some [] else none) i (some [])) 1 [] (nameA.record i hi)) →
      WellFormed withA dirsA := by
    rintro i hi rfl h
    exact h
  exact hinode _ _ halloc hmkdir

/-- `/a/a` in `/a`, made by a process in `/a`. -/
def withAA : AbyssFs := createIn withA pathA.bytes pathAA.bytes

/-- Its directories: `/a` has an entry. -/
theorem wellFormed_withAA : ∃ dirs r, WellFormed withAA dirs ∧ dirs 1 = dirsA 1 ∧
    dirs 2 = some [r] ∧
    r.name = nameA.bytes ∧ dirs r.inode = none ∧ ∀ ts, resolve dirsA 1 ts = some 2 →
      resolve dirs 1 ts = some 2 := by
  obtain ⟨-, hlt, hnone, -⟩ := stores_withA.allocInode_fresh allocInode_withA
  have hname : basename (pathAA.bytes.dropWhile (· = slash)) = nameA.bytes := rfl
  have hwf := wellFormed_withA.create (Heap.mk 0) pathA_absolute pathA_leads dirsA_two hname rfl
    (by decide) allocInode_withA hlt
  rw [← createIn_eq] at hwf
  have hne : (allocInode withA).1 ≠ 2 := by
    intro heq
    rw [heq, dirsA_two] at hnone
    cases hnone
  refine ⟨_, nameA.record _ hlt, hwf, Function.update_of_ne (by decide) _ dirsA,
    Function.update_self 2 _ dirsA, rfl, ?_, fun ts hts => resolve_update dirsA_two hts⟩
  rw [EntryName.record_inode, Dirs.put, Function.update_of_ne hne]
  exact hnone

/-- `abyssfs_remove_recursive("/a")` leaves the inode of `/a/a` in use. -/
theorem removal_leaves_entry :
    ∃ dirs, WellFormed withAA dirs ∧ pathA.Leads dirs 2 ∧ (dirs 2).isSome ∧
      ¬ RemovesSubtree withAA dirs pathA 2 := by
  obtain ⟨dirs, r, hwf, hone, htwo, -, -, hresolve⟩ := wellFormed_withAA
  have hleads : pathA.Leads dirs 2 := hresolve _ pathA_leads
  have hsome : (dirs 2).isSome := by
    rw [htwo]
    rfl
  refine ⟨dirs, hwf, hleads, hsome, ?_⟩
  intro hremoves
  have hempty := (hwf.of_removesSubtree hleads hsome (by decide) hremoves).2
    ⟨_, ⟨_, hone.trans dirsA_one, List.mem_cons_self⟩, rfl⟩
  rw [htwo] at hempty
  cases hempty

/-- The path `/a/.`. -/
def pathADot : VfsPath where
  bytes := str ['/', 'a', '/', '.']
  nul_free := by unfold NulFree; decide
  length_lt := by decide

/-- The name `c`. -/
def nameC : EntryName where
  bytes := str ['c']
  nonempty := by decide
  length_le := by decide
  no_slash := by decide
  nul_free := by unfold NulFree; decide
  ne_dot := by decide
  ne_dotdot := by decide

/-- `/a`, empty, and the file `/c`. -/
def withAC : AbyssFs := createIn withA rootPath.bytes nameC.bytes

/-- `abyssfs_remove_recursive("/a")` beside a file; and `abyssfs_remove_recursive("/a/.")` while
there is `/a/a`, which finds no entry of that name. -/
theorem removesSubtree_beside :
    (∃ dirs, (∃ q r, dirs 1 = some [q, r]) ∧ RemovesSubtree withAC dirs pathA 2) ∧
    ∃ dirs r, dirs 2 = some [r] ∧ RemovesSubtree withAA dirs pathADot 2 := by
  constructor
  · obtain ⟨-, hlt, hnone, -⟩ := stores_withA.allocInode_fresh allocInode_withA
    have hwf := wellFormed_withA.create (Heap.mk 0) rootPath_absolute rootPath_leads dirsA_one
      nameC.basename_strip rfl (by decide) allocInode_withA hlt
    rw [← createIn_eq] at hwf
    obtain ⟨dirs, hdirs⟩ : ∃ dirs, dirs = dirsA.put 1 [entryRecord nameA.bytes 2 nameA.nul_free
      nameA.length_le (by decide)] (nameC.record _ hlt) := ⟨_, rfl⟩
    rw [← hdirs] at hwf
    have hone : ∃ q r, dirs 1 = some [q, r] := by
      rw [hdirs]
      exact ⟨_, _, Function.update_self 1 _ dirsA⟩
    have htwo : dirs 2 = some [] := by
      rw [hdirs, Dirs.put, Function.update_of_ne (by decide)]
      exact dirsA_two
    have hleads : pathA.Leads dirs 2 := by
      rw [hdirs]
      exact resolve_update dirsA_one pathA_leads
    exact ⟨dirs, hone, (removesSubtree_iff hwf hleads (by rw [htwo]; rfl) (by decide)).2
      ⟨.dir htwo (by simp) (by simp), fun _ => htwo⟩⟩
  · obtain ⟨dirs, r, hwf, hone, htwo, hname, hfile, hresolve⟩ := wellFormed_withAA
    have hleads : pathADot.Leads dirs 2 := hresolve _ rfl
    refine ⟨dirs, r, htwo, (removesSubtree_iff hwf hleads (by rw [htwo]; rfl) (by decide)).2
      ⟨?_, ?_⟩⟩
    · refine .dir htwo (fun q hq => ?_) fun q hq hdir => ?_
      · obtain rfl : q = r := List.mem_singleton.1 (List.mem_of_mem_take hq)
        rw [hname]
        decide
      · obtain rfl : q = r := List.mem_singleton.1 (List.mem_of_mem_take hq)
        rw [hfile] at hdir
        cases hdir
    · rintro ⟨q, ⟨rs, hrs, hq⟩, hstrip⟩
      obtain rfl : rs = [entryRecord nameA.bytes 2 nameA.nul_free nameA.length_le (by decide)] :=
        Option.some.inj (hrs.symm.trans (hone.trans dirsA_one))
      rw [List.mem_singleton.1 hq] at hstrip
      exact absurd hstrip (by decide)

end OsArm
