import OsArm.Abyss.Placement
import OsArm.Abyss.Walks

/-!
# Paths of AbyssFS, component by component

* `ChainInode` — an inode without a block, or with a block that is a well-formed chain of entries.
* `searchTokens_append` — the search along a concatenation.
* `getInodeByPath_compositional` — `get_inode_by_path` depends on the components of a path only,
  gives the root for none, and with one component more looks for an entry of that name.
-/

namespace OsArm

/-- The inode has no block, or one below 64 that is a chain of entries, terminated inside it, whose
inode numbers are in the table. -/
def ChainInode (fs : AbyssFs) (n : Nat) : Prop :=
  (fs.inodes n).blocks = 0 ∨ (fs.inodes n).blocks < totalBlocks ∧
    ∃ rs, dirFormat.Chain fs.blocks ((fs.inodes n).blocks * blockSize) rs ∧
      recLen fs.blocks ((fs.inodes n).blocks * blockSize + dirFormat.span rs) = 0 ∧
      dirFormat.span rs + dirEntryFixedSize ≤ blockSize ∧ ∀ r ∈ rs, r.inode < maxInodes

/-- The inode of the first entry of a name in the directory `n`; none if it has no block. -/
def entryInode (fs : AbyssFs) (n : Nat) (name : Str) : Option Nat :=
  if (fs.inodes n).blocks = 0 then none
  else ((listing fs n blockSize).find? (·.name = name)).map Dirent.inode

section Search

variable {fs : AbyssFs} {n : Nat} {path name : Str}

/-- The components of a path that is not cut. -/
theorem components_of_length_le (h : path.length ≤ 255) : components path = tokens path := by
  have hlen : (path.dropWhile (· = slash)).length ≤ path.length :=
    (List.dropWhile_suffix _).length_le
  rw [components, List.take_of_length_le (by omega), tokens_dropWhile]

/-- The search along a concatenation goes on where the search along its first part ended. -/
theorem searchTokens_append (fs : AbyssFs) (n : Nat) (ts us : List Str) :
    (searchTokens fs n (ts ++ us)).1 =
      (searchTokens fs n ts).1.bind fun k => (searchTokens fs k us).1 := by
  induction ts generalizing n with
  | nil => rfl
  | cons t ts ih =>
    rw [List.cons_append, searchTokens, searchTokens]
    dsimp only
    split
    · rfl
    · cases findEntry fs.blocks t walkFuel ((fs.inodes n).blocks * blockSize) with
      | none => rfl
      | some dir =>
        dsimp only
        split
        · rfl
        · exact ih _

/-- **One component**: the search finds the first entry of the name. -/
theorem searchTokens_singleton (h : ChainInode fs n) (hn : NulFree name) :
    (searchTokens fs n [name]).1 = entryInode fs n name := by
  rw [searchTokens, entryInode]
  rcases h with hzero | ⟨hlt, rs, hchain, hstop, hfits, hinode⟩
  · rw [if_pos (Or.inl hzero), if_pos hzero]
  · by_cases hzero : (fs.inodes n).blocks = 0
    · rw [if_pos (Or.inl hzero), if_pos hzero]
    · have hcount := dirFormat.length_le_span rs
      have hword : (findEntry fs.blocks name walkFuel ((fs.inodes n).blocks * blockSize)).map
          fs.blocks.word = (rs.find? (·.name = name)).map DirRecord.inode :=
        findEntry_word hchain hstop hn
          (by simp only [walkFuel, heapSize, blockSize] at hfits ⊢; omega)
      have hlist : listing fs n blockSize = rs.map DirRecord.toDirent := by
        rw [listing, readEntries_chain hchain hstop, List.take_of_length_le (by simp; omega)]
      rw [if_neg (not_or.2 ⟨hzero, Nat.not_le.2 hlt⟩), if_neg hzero, hlist, find_toDirent, ← hword]
      cases hfind : findEntry fs.blocks name walkFuel ((fs.inodes n).blocks * blockSize) with
      | none => rfl
      | some dir =>
        rw [hfind, Option.map_some] at hword
        obtain ⟨r, hr, hdir⟩ := Option.map_eq_some_iff.1 hword.symm
        have hmem := hinode r (List.mem_of_find?_eq_some hr)
        rw [hdir] at hmem
        dsimp only
        rw [if_neg (Nat.not_le.2 hmem)]
        rfl

/-- **One component more.** -/
theorem getInodeByPath_snoc (hlen : (path ++ slash :: name).length ≤ 255) (hne : name ≠ [])
    (hslash : slash ∉ name) (hnul : NulFree name)
    (hgood : ∀ n, getInodeByPath fs path = some n → ChainInode fs n) :
    getInodeByPath fs (path ++ slash :: name) =
      (getInodeByPath fs path).bind fun n => entryInode fs n name := by
  have hp : path.length ≤ 255 := by
    rw [List.length_append] at hlen
    omega
  rw [getInodeByPath_search, components_of_length_le hlen, tokens_append, tokens_name hne hslash,
    searchTokens_append, ← components_of_length_le hp, ← getInodeByPath_search]
  cases hpath : getInodeByPath fs path with
  | none => rfl
  | some n => exact searchTokens_singleton (hgood n hpath) hnul

end Search

/-- **`get_inode_by_path` is compositional**, for paths of up to 255 bytes. -/
theorem getInodeByPath_compositional (fs : AbyssFs) :
    (∀ p q : Str, p.length ≤ 255 → q.length ≤ 255 → tokens p = tokens q →
      getInodeByPath fs p = getInodeByPath fs q) ∧
    (∀ p : Str, p.length ≤ 255 → tokens p = [] → getInodeByPath fs p = some 1) ∧
    ∀ p c : Str, (p ++ slash :: c).length ≤ 255 → c ≠ [] → slash ∉ c → NulFree c →
      (∀ n, getInodeByPath fs p = some n → ChainInode fs n) →
      getInodeByPath fs (p ++ slash :: c) =
        (getInodeByPath fs p).bind fun n => entryInode fs n c := by
  refine ⟨?_, ?_,
    fun p c hlen hne hslash hnul hgood => getInodeByPath_snoc hlen hne hslash hnul hgood⟩
  · intro p q hp hq heq
    rw [getInodeByPath_search, getInodeByPath_search, components_of_length_le hp,
      components_of_length_le hq, heq]
  · intro p hp hnil
    rw [getInodeByPath_search, components_of_length_le hp, hnil]
    rfl

/-- A directory of the tree is a chain of entries. -/
theorem DirAt.chainInode {fs : AbyssFs} {d : Nat} {rs : List DirRecord} (h : DirAt fs d rs) :
    ChainInode fs d := by
  obtain ⟨fresh, hfresh, hchain, hstop⟩ := h.block.chain
  have hlen := h.block.span_lt hfresh
  refine Or.inr ⟨h.data.2, _, hchain, hstop, by unfold dirEntryFixedSize; omega, ?_⟩
  have hone : 1 < maxInodes := by decide
  exact List.forall_mem_cons.2 ⟨h.lt, List.forall_mem_cons.2 ⟨hone, h.inode_lt⟩⟩

/-- `"/a/a"`, made by a process in `/a`, is the entry `a` of the directory `/a`. -/
theorem getInodeByPath_compositional_nested :
    getInodeByPath (createIn withA pathA.bytes pathAA.bytes) (pathA.bytes ++ slash :: nameA.bytes) =
      entryInode (createIn withA pathA.bytes pathAA.bytes) 2 nameA.bytes := by
  obtain ⟨-, hlt, -⟩ := stores_withA.allocInode_fresh allocInode_withA
  have hname : basename (pathAA.bytes.dropWhile (· = slash)) = nameA.bytes := rfl
  have hstores := stores_withA.create (Heap.mk 0) pathAA.bytes pathA_absolute
    pathA_leads dirsA_two hname
    nameA.nul_free nameA.length_le (by decide) allocInode_withA (Nat.lt_trans hlt (by decide))
  rw [← createIn_eq] at hstores
  have hpath := hstores.getInodeByPath_path (resolve_update dirsA_two pathA_leads)
  have hcomp := (getInodeByPath_compositional (createIn withA pathA.bytes pathAA.bytes)).2.2
    pathA.bytes
    nameA.bytes (by decide) nameA.nonempty nameA.no_slash nameA.nul_free fun n hn => by
      rw [hpath] at hn
      rw [← Option.some.inj hn]
      exact (hstores.dir 2 _ (Function.update_self 2 _ dirsA)).chainInode
  rwa [hpath, Option.bind_some] at hcomp

end OsArm
