import OsArm.Ram.Reading
import OsArm.Shell

/-!
# Copying files (`shell.c`)

`cmd_cp` from one path below `"/tmp/"` to another that has no file yet.

* `copyLoop_abyss`, `cmdCp_abyss` — a copy to RAMFS leaves AbyssFS alone.
* `cmdCp_exact` — the copy ends, the new file reads as the old one, and nothing else has changed.
-/

namespace OsArm

/-! ## The other file system -/

section Abyss

variable {v v' : Vfs} {src dst : TmpPath} {d : Nat}

/-- The descriptor has a handle on RAMFS. -/
def OnRam (v : Vfs) (d : Nat) : Prop := ∃ i, (v.fdTable d).map VfsFile.object = some (.ramfs, i)

theorem withFd_abyss (r : Option VfsFile × Vfs) : (withFd r).2.abyss = r.2.abyss := by
  obtain ⟨file, v⟩ := r
  cases file with
  | none => rfl
  | some file =>
    simp only [withFd, allocFd]
    split <;> rfl

theorem vfsRead_abyss (v : Vfs) (fd : Int) (count : Nat) :
    (vfsRead v fd count).2.abyss = v.abyss := by
  unfold vfsRead
  cases getFile v fd with
  | none => rfl
  | some file =>
    dsimp only
    cases file.fOps <;> rfl

/-- A write through a handle on RAMFS. -/
theorem vfsWrite_abyss (hd : d < maxFd) (hram : OnRam v d) (buf : List UInt8) :
    (vfsWrite v d buf).2.abyss = v.abyss := by
  obtain ⟨i, hi⟩ := hram
  obtain ⟨file, hfile, hobject⟩ := Option.map_eq_some_iff.1 hi
  have hops : file.fOps = .ramfs := congrArg Prod.fst hobject
  unfold vfsWrite
  rw [getFile_natCast hd, hfile]
  dsimp only
  rw [hops]
  rfl

/-- **The copy loop** writes through the second descriptor only. -/
theorem copyLoop_abyss {fuel : Nat} {s : Int} (hd : d < maxFd) (hram : OnRam v d)
    (h : copyLoop fuel v s d = some v') : v'.abyss = v.abyss := by
  induction fuel generalizing v with
  | zero => cases h
  | succ fuel ih =>
    have hread := vfsRead_abyss v s copyBuf
    have hram₁ : OnRam (vfsRead v s copyBuf).2 d := by
      unfold OnRam
      rw [(vfsRead_objects v s copyBuf).1 d]
      exact hram
    rw [copyLoop] at h
    generalize vfsRead v s copyBuf = r at h hread hram₁
    obtain ⟨out, v₁⟩ := r
    cases out with
    | none =>
      cases h
      exact hread
    | some buf =>
      dsimp only at h
      have hwrite := vfsWrite_abyss hd hram₁ buf
      have hram₂ : OnRam (vfsWrite v₁ d buf).2 d := by
        unfold OnRam
        rw [(vfsWrite_objects v₁ d buf).1 d]
        exact hram₁
      split at h
      · cases h
        exact hread
      · split at h
        · cases h
          exact hwrite.trans hread
        · exact (ih hram₂ h).trans (hwrite.trans hread)

/-- A file created below `"/tmp/"` gets a handle on RAMFS. -/
theorem vfsCreate_tmp_onRam (v : Vfs) (p : TmpPath) :
    (vfsCreate v p.bytes).2.abyss = v.abyss ∧ (¬ (vfsCreate v p.bytes).1 < 0 →
      ∃ d : Nat, (vfsCreate v p.bytes).1 = d ∧ d < maxFd ∧ OnRam (vfsCreate v p.bytes).2 d) := by
  rw [vfsCreate_eq, withFd_abyss, fsCreate_tmp v p.tmp]
  refine ⟨rfl, ?_⟩
  intro hfd
  rw [ramfsCreate_tmp v.heap v.ram p.tmp] at hfd ⊢
  have hneg : (-1 : Int) < 0 := by decide
  cases hfree : findFree v.ram with
  | none =>
    rw [hfree] at hfd
    exact absurd hneg hfd
  | some j =>
    rw [hfree] at hfd
    cases hk : kalloc v.heap sizeofVfsFile with
    | none =>
      simp only [hk] at hfd
      exact absurd hneg hfd
    | some x =>
      simp only [hk, withFd] at hfd ⊢
      by_cases hlt : v.nextFd < maxFd
      · rw [allocFd_of_lt (by dsimp only; exact hlt)]
        exact ⟨v.nextFd, rfl, hlt, j, by simp [VfsFile.object]⟩
      · rw [allocFd_of_le (by dsimp only; exact Nat.not_lt.1 hlt)] at hfd
        exact absurd hneg hfd

/-- **A copy** to a path below `"/tmp/"` leaves AbyssFS alone. -/
theorem cmdCp_abyss {fuel : Nat}
    (h : cmdCp fuel v (src.bytes ++ [blank] ++ dst.bytes) = some v') : v'.abyss = v.abyss := by
  have hopen : (vfsOpen v src.bytes).2.abyss = v.abyss := by
    rw [vfsOpen_eq, withFd_abyss]
    rfl
  rw [cmdCp_eq rfl rfl] at h
  obtain ⟨hcreate, honRam⟩ := vfsCreate_tmp_onRam (vfsOpen v src.bytes).2 dst
  split at h
  · cases h
    exact hopen
  · split at h
    · cases h
      exact hcreate.trans hopen
    · next hfd =>
      obtain ⟨d, hd, hlt, hram⟩ := honRam hfd
      rw [hd] at h
      exact (copyLoop_abyss hlt hram h).trans (hcreate.trans hopen)

end Abyss

/-! ## The copy -/

/-- **`cp` copies exactly.**  With a free slot, two free descriptors and memory for two handles,
it ends; the new path then opens to the bytes of the old one, through `vfs_open` too where that has
a descriptor; every slot but the new one is as it was and is found under its path as it was, and
AbyssFS is as it was. -/
theorem cmdCp_exact {v : Vfs} {i j : Nat} {src dst : TmpPath} (hns : v.ns = [])
    (hsrc : findUsed v.ram src.bytes = some i) (hsize : (v.ram.files i).size ≤ maxContent)
    (hdst : findUsed v.ram dst.bytes = none) (hj : Creates v j) (hfd : v.nextFd + 1 < maxFd) :
    ∃ v' n, (∀ fuel, n ≤ fuel → cmdCp fuel v (src.bytes ++ [blank] ++ dst.bytes) = some v') ∧
      OpensTo v'.ram dst.bytes (v.ram.files i).bytes ∧
      (∀ w : Vfs, w.ram = v'.ram → w.ns = [] → (kalloc w.heap sizeofVfsFile).isSome →
        w.nextFd < maxFd → (vfsRead (vfsOpen w dst.bytes).2 (vfsOpen w dst.bytes).1 maxContent).1 =
          some (v.ram.files i).bytes) ∧
      (∀ k, k ≠ j → v'.ram.files k = v.ram.files k) ∧
      (∀ p, NulFree p → p ≠ dst.bytes → findUsed v'.ram p = findUsed v.ram p) ∧
      v'.abyss = v.abyss := by
  obtain ⟨v', failed, n, hruns, -, hcopy⟩ := cmdCp_spec dst hns hsrc hsize
  have hrun := fun fuel hfuel => (hruns fuel hfuel).1
  have habyss : v'.abyss = v.abyss := cmdCp_abyss (hrun n (Nat.le_refl n))
  rcases hcopy with ⟨j', hj', hfiles, hholds, hbytes, -⟩ | ⟨hnone, -⟩
  · obtain rfl := hj.eq hj'
    rw [if_pos hfd] at hbytes
    obtain ⟨hjmax, hjfree⟩ := findFree_eq_some hj.free
    have hold : ∀ k < maxFiles, ¬ HoldsPath v.ram k dst.bytes := fun k hk hno =>
      (findUsed_eq_none dst.nul_free).1 hdst k hk hno.1 hno.2
    have hfound : findUsed v'.ram dst.bytes = some j' := by
      refine (findUsed_eq_some_iff dst.nul_free).2 ⟨hjmax, hholds, ?_⟩
      intro k hk hno
      unfold HoldsPath at hno
      rw [hfiles k (by omega)] at hno
      exact hold k (by omega) hno
    have hlen : (v'.ram.files j').size ≤ maxContent := by
      have hsame := congrArg List.length hbytes
      rw [RamfsFile.bytes, RamfsFile.bytes, length_memcpyFrom, length_memcpyFrom] at hsame
      omega
    refine ⟨v', n, hrun, hbytes ▸ opensTo_bytes hfound hlen, ?_, hfiles, ?_, habyss⟩
    · intro w hw hwns hwheap hwfd
      have hcontent : fileContent w.ram dst.bytes = some (v.ram.files i).bytes := by
        rw [fileContent, hw, hfound, Option.map_some, hbytes]
      have hcap : (v.ram.files i).bytes.length ≤ maxContent := by
        rwa [RamfsFile.bytes, length_memcpyFrom]
      exact open_read hwns dst hcontent hcap hwheap hwfd hcap (by decide)
    · intro p hp hne
      refine findUsed_congr hp ?_
      intro k
      by_cases hk : k = j'
      · subst hk
        refine iff_of_false (fun h => hne (h.unique hholds hp dst.nul_free)) ?_
        intro h
        rw [h.1] at hjfree
        cases hjfree
      · unfold HoldsPath
        rw [hfiles k hk]
  · exact absurd hj (hnone j)

/-- The last two descriptors are enough to copy `/tmp/a` to `/tmp/b`. -/
theorem cmdCp_exact_withTmpA :
    ∃ v' n, (∀ fuel, n ≤ fuel →
        cmdCp fuel (withTmpA 30) (argA.bytes ++ [blank] ++ argB.bytes) = some v') ∧
      OpensTo v'.ram argB.bytes (str ['x']) := by
  have hdst : findUsed (withTmpA 30).ram argB.bytes = none := by
    have h : findUsed (ramfsCreateFile ramfsInit tmpA (str ['x'])).2 argB.bytes = none := by decide
    exact h
  have hfree : findFree (withTmpA 30).ram = some 1 := by
    have h : findFree (ramfsCreateFile ramfsInit tmpA (str ['x'])).2 = some 1 := by decide
    exact h
  obtain ⟨v', n, hrun, hopens, -⟩ := cmdCp_exact (v := withTmpA 30) rfl (findUsed_withTmpA 30)
    (by decide) hdst ⟨by decide, by decide, hfree⟩ (by decide)
  rw [bytes_withTmpA] at hopens
  exact ⟨v', n, hrun, hopens⟩

end OsArm
