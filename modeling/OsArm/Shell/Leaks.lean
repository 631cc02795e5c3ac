import OsArm.Shell.Directories

/-!
# Descriptors that commands leave open (`shell.c`)

`cmd_cd` opens the directory it goes to, to see whether it is there, and `cmd_cp` its two files;
neither closes what it has opened.

* `openFds` — the open descriptors; `Topped` — there are none from `next_fd` on.
* `FileCommand` — the six commands; `FileCommand.OpensNothing` — one of them finds nothing to open.
* `Unmoved`, `Grown`, `Leaked` — what a call has done to the table; `FileCommand.next_spec` says
  which of them a command does.
* `openFds_iff` — a command leaves the open descriptors as they were if and only if it opens
  nothing, and a run leaves their number as it was if and only if all its commands do.
* `cd_leaves_open` — after `cd /` a descriptor is open.
-/

namespace OsArm

/-! ## Open descriptors -/

/-- The open descriptors. -/
def openFds (v : Vfs) : Finset Nat := (Finset.range maxFd).filter fun k => (v.fdTable k).isSome

/-- No descriptor from `next_fd` on is open: `alloc_fd` takes the next one, and nothing ever goes
back. -/
def Topped (v : Vfs) : Prop := ∀ k, v.nextFd ≤ k → v.fdTable k = none

/-- A command, with its argument string. -/
inductive FileCommand
  | call (a : ShellCall)
  | cp (args : Str)
  | mv (args : Str)

/-- `vfs_open` gives no descriptor for the path: all have been given away, there is no memory for a
handle, or the path leads to RAMFS, which has no such file. -/
def Unopenable (v : Vfs) (path : Str) : Prop :=
  maxFd ≤ v.nextFd ∨ kalloc v.heap sizeofVfsFile = none ∨
    (openTarget v.ns path).1 = .ramfs ∧ findUsed v.ram (openTarget v.ns path).2 = none

/-- The path that `cmd_cd` opens: the components of its argument, entered from the left, from the
working directory or the root. -/
def cdPath (cwd path : Str) : Str :=
  ((tokens path).foldl enter (if path.head? = some slash then
    ({ text := [], stores := [] } : PathBuf).root else PathBuf.copy cwd)).text

namespace FileCommand

/-- The command returns, in the state `w`. -/
def Next (v w : Vfs) : FileCommand → Prop
  | call a => a.Next v w
  | cp args => ∃ fuel, cmdCp fuel v args = some w
  | mv args => ∃ fuel, cmdMv fuel v args = some w

/-- **The condition.**  `cd` needs to open no directory, or cannot; `cp` and `mv` lack an argument,
or cannot open the source. -/
def OpensNothing (v : Vfs) : FileCommand → Prop
  | call (.cd args) => args = [] ∨ args = str ['.'] ∨ args = str ['.', '.'] ∨
      Unopenable v (cdPath v.cwd args)
  | call (.mkdir _) | call (.touch _) | call (.rm _) => True
  | cp args | mv args => ∀ src dst, twoArgs args = some (src, dst) → Unopenable v src

end FileCommand

/-- The commands, in any order. -/
def commandLts : Lts Vfs FileCommand where
  step v c w := c.Next v w

/-- In a canonical directory, `cmd_cd` opens the directory that was asked for. -/
theorem cdPath_canonical {cwd path : Str} (h : Canonical cwd) (hne : path ≠ []) :
    cdPath cwd path = dirPath (cdTarget cwd path) := by
  obtain ⟨cs, hcs, rfl⟩ := h
  have hnames := areNames_of_isName hcs
  unfold cdPath cdTarget
  rw [if_neg hne, tokens_dirPath hnames]
  split
  · have hroot : ({ text := [], stores := [] } : PathBuf).root.text = dirPath [] := rfl
    have hnil : AreNames [] := fun c hc => absurd hc List.not_mem_nil
    exact (enterAll_spec hroot hnil (areNames_tokens path)).1
  · exact (enterAll_spec rfl hnames (areNames_tokens path)).1

/-! ## What becomes of the table -/

/-- The same descriptors are open. -/
structure Unmoved (v w : Vfs) : Prop where
  same : ∀ k, (w.fdTable k).isSome = (v.fdTable k).isSome
  next : v.nextFd ≤ w.nextFd

/-- All open descriptors have stayed open. -/
structure Grown (v w : Vfs) : Prop where
  kept : ∀ k, (v.fdTable k).isSome → (w.fdTable k).isSome
  topped : Topped v → Topped w

/-- One more is open. -/
def Leaked (v w : Vfs) : Prop := ∃ k < maxFd, v.fdTable k = none ∧ (w.fdTable k).isSome

section Table

variable {u v w : Vfs} {path : Str}

theorem Unmoved.trans (h : Unmoved u v) (h' : Unmoved v w) : Unmoved u w :=
  ⟨fun k => (h'.same k).trans (h.same k), Nat.le_trans h.next h'.next⟩

theorem Unmoved.of_frame (h : w.fdTable = v.fdTable ∧ w.nextFd = v.nextFd) : Unmoved v w :=
  ⟨fun k => by rw [h.1], Nat.le_of_eq h.2.symm⟩

/-- A call that keeps the objects of the handles. -/
theorem Unmoved.of_objects (h : (∀ k, (w.fdTable k).map VfsFile.object =
    (v.fdTable k).map VfsFile.object) ∧ w.nextFd = v.nextFd) : Unmoved v w := by
  refine ⟨fun k => ?_, Nat.le_of_eq h.2.symm⟩
  rw [← Option.isSome_map (f := VfsFile.object), h.1 k, Option.isSome_map]

theorem Unmoved.grown (h : Unmoved v w) : Grown v w := by
  refine ⟨fun k hk => (h.same k).trans hk, fun htop k hk => ?_⟩
  have hnone := h.same k
  rw [htop k (Nat.le_trans h.next hk)] at hnone
  exact Option.isSome_eq_false_iff.1 hnone |> Option.isNone_iff_eq_none.1

theorem Grown.trans (h : Grown u v) (h' : Grown v w) : Grown u w :=
  ⟨fun k hk => h'.kept k (h.kept k hk), fun htop => h'.topped (h.topped htop)⟩

theorem Leaked.trans (h : Leaked u v) (h' : Grown v w) : Leaked u w := by
  obtain ⟨k, hk, hnone, hopen⟩ := h
  exact ⟨k, hk, hnone, h'.kept k hopen⟩

theorem Unmoved.openFds_eq (h : Unmoved v w) : openFds w = openFds v := by
  unfold openFds
  simp only [h.same]

theorem Grown.openFds_subset (h : Grown v w) : openFds v ⊆ openFds w := by
  intro k hk
  obtain ⟨hlt, hopen⟩ := Finset.mem_filter.1 hk
  exact Finset.mem_filter.2 ⟨hlt, h.kept k hopen⟩

theorem Leaked.openFds_ne (h : Leaked v w) : openFds w ≠ openFds v := by
  obtain ⟨k, hk, hnone, hopen⟩ := h
  intro heq
  have hmem : k ∈ openFds w := Finset.mem_filter.2 ⟨Finset.mem_range.2 hk, hopen⟩
  rw [heq] at hmem
  have hold := (Finset.mem_filter.1 hmem).2
  rw [hnone] at hold
  cases hold

/-! ## Opening -/

/-- The file system gives no handle. -/
theorem fsOpen_eq_none : (fsOpen v path).1 = none ↔ kalloc v.heap sizeofVfsFile = none ∨
    (openTarget v.ns path).1 = .ramfs ∧ findUsed v.ram (openTarget v.ns path).2 = none := by
  unfold fsOpen
  obtain ⟨fs, resolved⟩ := openTarget v.ns path
  cases fs with
  | abyssfs =>
    simp only [abyssfsOpen]
    cases kalloc v.heap sizeofVfsFile <;> simp
  | ramfs =>
    simp only [ramfsOpen]
    cases findUsed v.ram resolved with
    | none => simp
    | some i => cases kalloc v.heap sizeofVfsFile <;> simp

/-- A call that opens fails and leaves the table alone, or one more descriptor is open. -/
theorem OpenCall.leaked (v : Vfs) (c : OpenCall) :
    ((c.file v).1 = none ∨ maxFd ≤ v.nextFd) ∧ (c.apply v).1 < 0 ∧ Unmoved v (c.apply v).2 ∨
      ¬ ((c.file v).1 = none ∨ maxFd ≤ v.nextFd) ∧ ¬ (c.apply v).1 < 0 ∧ Grown v (c.apply v).2 ∧
        (Topped v → Leaked v (c.apply v).2) := by
  rcases c.apply_spec v with ⟨hfail, hret, hsame⟩ | ⟨file, hfile, hlt, hret, htable, hnext⟩
  · exact Or.inl ⟨hfail, by omega, .of_frame hsame⟩
  · refine Or.inr ⟨?_, by omega, ⟨fun k hk => ?_, fun htop k hk => ?_⟩, fun htop => ?_⟩
    · rw [hfile]
      rintro (hno | hno)
      · cases hno
      · omega
    · rw [htable]
      dsimp only
      split
      · rfl
      · exact hk
    · rw [htable]
      dsimp only
      rw [if_neg (by omega)]
      exact htop k (by omega)
    · refine ⟨v.nextFd, hlt, htop _ (Nat.le_refl _), ?_⟩
      rw [htable]
      dsimp only
      rw [if_pos rfl]
      rfl

/-- **`vfs_open`** fails and leaves the table alone, or one more descriptor is open. -/
theorem vfsOpen_leaked (htop : Topped v) (path : Str) :
    Unopenable v path ∧ (vfsOpen v path).1 < 0 ∧ Unmoved v (vfsOpen v path).2 ∨
      ¬ Unopenable v path ∧ ¬ (vfsOpen v path).1 < 0 ∧ Grown v (vfsOpen v path).2 ∧
        Leaked v (vfsOpen v path).2 := by
  have hfile : Unopenable v path ↔ ((OpenCall.openPath path).file v).1 = none ∨
      maxFd ≤ v.nextFd := by
    unfold Unopenable
    rw [OpenCall.file, fsOpen_eq_none]
    exact or_comm
  rw [hfile]
  rcases (OpenCall.openPath path).leaked v with hfail | ⟨hopen, hpos, hgrown, hleaked⟩
  · exact Or.inl hfail
  · exact Or.inr ⟨hopen, hpos, hgrown, hleaked htop⟩

/-! ## The commands -/

/-- The copy loop keeps the handles. -/
theorem copyLoop_unmoved {fuel : Nat} {s d : Int} (h : copyLoop fuel v s d = some w) :
    Unmoved v w := by
  induction fuel generalizing v with
  | zero => cases h
  | succ fuel ih =>
    have hread := Unmoved.of_objects (vfsRead_objects v s copyBuf)
    rw [copyLoop] at h
    generalize vfsRead v s copyBuf = r at h hread
    obtain ⟨out, v₁⟩ := r
    cases out with
    | none =>
      cases h
      exact hread
    | some buf =>
      dsimp only at h
      have hwrite := Unmoved.of_objects (vfsWrite_objects v₁ d buf)
      split at h
      · cases h
        exact hread
      · split at h
        · cases h
          exact hread.trans hwrite
        · exact (hread.trans hwrite).trans (ih h)

/-- **`cmd_cp`** leaves its source open. -/
theorem cmdCp_leaked {fuel : Nat} {args src dst : Str} (htop : Topped v)
    (hargs : twoArgs args = some (src, dst)) (h : cmdCp fuel v args = some w) :
    Unopenable v src ∧ Unmoved v w ∨ ¬ Unopenable v src ∧ Grown v w ∧ Leaked v w := by
  unfold cmdCp at h
  rw [hargs] at h
  rcases vfsOpen_leaked htop src with ⟨hno, hneg, hsame⟩ | ⟨hyes, hpos, hgrown, hleaked⟩
  · dsimp only at h
    rw [if_pos hneg] at h
    cases h
    exact Or.inl ⟨hno, hsame⟩
  · dsimp only at h
    rw [if_neg hpos] at h
    have hcreated : Grown (vfsOpen v src).2 (vfsCreate (vfsOpen v src).2 dst).2 := by
      rcases (OpenCall.create dst).leaked (vfsOpen v src).2 with ⟨-, -, hsame⟩ | ⟨-, -, hmore, -⟩
      · exact hsame.grown
      · exact hmore
    have hend : Grown (vfsOpen v src).2 w := by
      split at h
      · cases h
        exact hcreated
      · exact hcreated.trans (copyLoop_unmoved h).grown
    exact Or.inr ⟨hyes, hgrown.trans hend, hleaked.trans hend⟩

/-- **`cmd_cd`** leaves the directory open. -/
theorem cmdCd_leaked (htop : Topped v) (args : Str) :
    (FileCommand.call (.cd args)).OpensNothing v ∧ Unmoved v (cmdCd v args).1 ∨
      ¬ (FileCommand.call (.cd args)).OpensNothing v ∧ Grown v (cmdCd v args).1 ∧
        Leaked v (cmdCd v args).1 := by
  have hcond : (FileCommand.call (.cd args)).OpensNothing v ↔ args = [] ∨ args = str ['.'] ∨
      args = str ['.', '.'] ∨ Unopenable v (cdPath v.cwd args) := Iff.rfl
  rw [hcond, cmdCd]
  by_cases hne : args = []
  · rw [if_pos hne]
    exact Or.inl ⟨Or.inl hne, .of_frame ⟨rfl, rfl⟩⟩
  by_cases hdot : args = str ['.']
  · rw [if_neg hne, if_pos hdot]
    exact Or.inl ⟨Or.inr (Or.inl hdot), .of_frame ⟨rfl, rfl⟩⟩
  by_cases hdots : args = str ['.', '.']
  · rw [if_neg hne, if_neg hdot, if_pos hdots]
    exact Or.inl ⟨Or.inr (Or.inr (Or.inl hdots)), .of_frame ⟨rfl, rfl⟩⟩
  rw [if_neg hne, if_neg hdot, if_neg hdots, or_iff_right hne, or_iff_right hdot,
    or_iff_right hdots]
  dsimp only
  -- the loop goes through the components of the argument
  have htokens : tokens (if args.head? = some slash then args.drop 1 else args) = tokens args := by
    split
    · next habs =>
      obtain ⟨t, rfl⟩ := List.head?_eq_some_iff.1 habs
      exact (tokens_slash t).symm
    · rfl
  generalize hrest : (if args.head? = some slash then args.drop 1 else args) = rest at htokens ⊢
  have hloop := (cdLoop_eq (b := if args.head? = some slash then
      ({ text := [], stores := [] } : PathBuf).root else PathBuf.copy v.cwd)
    (Nat.lt_succ_self rest.length) (Nat.le_refl rest.length)
    (fun x hx => Nat.lt_succ_iff.1 (List.mem_range.1 hx))).1
  rw [htokens] at hloop
  have hpath := congrArg PathBuf.text hloop
  rw [show PathBuf.text _ = cdPath v.cwd args from hpath]
  rcases vfsOpen_leaked htop (cdPath v.cwd args) with
    ⟨hno, hneg, hsame⟩ | ⟨hyes, hpos, hgrown, hleaked⟩
  · rw [if_pos hneg]
    exact Or.inl ⟨hno, hsame⟩
  · rw [if_neg hpos]
    exact Or.inr ⟨hyes, ⟨hgrown.kept, hgrown.topped⟩, hleaked⟩

/-- **`cmd_touch`** closes what it has opened. -/
theorem cmdTouch_unmoved (htop : Topped v) (args : Str) : Unmoved v (cmdTouch v args) := by
  unfold cmdTouch
  split
  · exact .of_frame ⟨rfl, rfl⟩
  · dsimp only
    have hcreate := (OpenCall.create args).apply_spec v
    simp only [OpenCall.apply] at hcreate
    rcases hcreate with ⟨-, hret, hsame⟩ | ⟨file, -, hlt, hret, htable, hnext⟩
    · rw [hret, if_pos (by decide)]
      exact .of_frame hsame
    · have hget : getFile (vfsCreate v args).2 v.nextFd = some file := by
        rw [getFile_natCast hlt, htable]
        exact if_pos rfl
      rw [hret, if_neg (by omega)]
      unfold vfsClose
      rw [hget]
      -- the entry that is cleared is the one that has been filled
      refine ⟨fun k => ?_, by rw [hnext]; exact Nat.le_succ _⟩
      dsimp only
      rw [Int.toNat_natCast]
      by_cases hk : k = v.nextFd
      · rw [if_pos hk, htop k (Nat.le_of_eq hk.symm)]
      · rw [if_neg hk, htable]
        dsimp only
        rw [if_neg hk]

/-- `cmd_rm` opens nothing. -/
theorem cmdRm_frame {fuel : Nat} {args : Str} (h : cmdRm fuel v args = some w) :
    w.fdTable = v.fdTable ∧ w.nextFd = v.nextFd := by
  unfold cmdRm at h
  split at h
  · cases h
    exact ⟨rfl, rfl⟩
  · obtain ⟨⟨ret, u⟩, hrun, rfl⟩ := Option.map_eq_some_iff.1 h
    unfold vfsRemoveRecursive at hrun
    split at hrun
    · cases hrun
      exact ⟨rfl, rfl⟩
    · cases hrun
      exact ⟨rfl, rfl⟩
    · obtain ⟨x, -, hx⟩ := Option.map_eq_some_iff.1 hrun
      cases hx
      exact ⟨rfl, rfl⟩
  · cases h
    exact (FdCall.paths_frame v).1 _

/-- The commands with two arguments: nothing happens if one is missing, or all depends on the
source. -/
theorem FileCommand.two_args {args : Str} (hnone : twoArgs args = none → Unmoved v w)
    (hsome : ∀ src dst, twoArgs args = some (src, dst) →
      Unopenable v src ∧ Unmoved v w ∨ ¬ Unopenable v src ∧ Grown v w ∧ Leaked v w) :
    (FileCommand.cp args).OpensNothing v ∧ Unmoved v w ∨
      ¬ (FileCommand.cp args).OpensNothing v ∧ Grown v w ∧ Leaked v w := by
  cases hargs : twoArgs args with
  | none =>
    refine Or.inl ⟨?_, hnone hargs⟩
    intro src dst heq
    rw [hargs] at heq
    cases heq
  | some r =>
    obtain ⟨src, dst⟩ := r
    rcases hsome src dst hargs with ⟨hno, hsame⟩ | ⟨hyes, hleaked⟩
    · refine Or.inl ⟨?_, hsame⟩
      intro src' dst' heq
      rw [hargs] at heq
      cases heq
      exact hno
    · exact Or.inr ⟨fun hall => hyes (hall src dst hargs), hleaked⟩

/-- **One command** opens nothing, and then the same descriptors are open, or one more is. -/
theorem FileCommand.next_spec {c : FileCommand} (htop : Topped v) (h : c.Next v w) :
    c.OpensNothing v ∧ Unmoved v w ∨ ¬ c.OpensNothing v ∧ Grown v w ∧ Leaked v w := by
  cases c with
  | call a =>
    cases a with
    | cd args =>
      rw [show w = (cmdCd v args).1 from h]
      exact cmdCd_leaked htop args
    | mkdir args =>
      rw [show w = cmdMkdir v args from h]
      refine Or.inl ⟨trivial, ?_⟩
      unfold cmdMkdir
      split
      · exact .of_frame ⟨rfl, rfl⟩
      · exact .of_frame ((FdCall.paths_frame v).2.1 args)
    | touch args =>
      rw [show w = cmdTouch v args from h]
      exact Or.inl ⟨trivial, cmdTouch_unmoved htop args⟩
    | rm args =>
      obtain ⟨fuel, hrun⟩ := h
      exact Or.inl ⟨trivial, .of_frame (cmdRm_frame hrun)⟩
  | cp args =>
    obtain ⟨fuel, hrun⟩ := h
    refine FileCommand.two_args (fun hnone => ?_) fun src dst hargs => cmdCp_leaked htop hargs hrun
    rw [cmdCp, hnone] at hrun
    cases hrun
    exact .of_frame ⟨rfl, rfl⟩
  | mv args =>
    obtain ⟨fuel, hrun⟩ := h
    refine FileCommand.two_args (fun hnone => ?_) fun src dst hargs => ?_
    · rw [cmdMv, hnone] at hrun
      cases hrun
      exact .of_frame ⟨rfl, rfl⟩
    · rw [cmdMv, hargs] at hrun
      obtain ⟨u, hcopy, rfl⟩ := Option.map_eq_some_iff.1 hrun
      have hunlink : Unmoved u (vfsUnlink u src).2 := .of_frame ((FdCall.paths_frame u).1 src)
      rcases cmdCp_leaked htop (twoArgs_twoArgs hargs) hcopy with
        ⟨hno, hsame⟩ | ⟨hyes, hgrown, hleaked⟩
      · exact Or.inl ⟨hno, hsame.trans hunlink⟩
      · exact Or.inr ⟨hyes, hgrown.trans hunlink.grown, hleaked.trans hunlink.grown⟩

/-- What a command means for the open descriptors. -/
theorem FileCommand.next_openFds {c : FileCommand} (htop : Topped v) (h : c.Next v w) :
    Topped w ∧ openFds v ⊆ openFds w ∧ (openFds w = openFds v ↔ c.OpensNothing v) := by
  rcases c.next_spec htop h with ⟨hno, hsame⟩ | ⟨hyes, hgrown, hleaked⟩
  · exact ⟨hsame.grown.topped htop, hsame.grown.openFds_subset, iff_of_true hsame.openFds_eq hno⟩
  · exact ⟨hgrown.topped htop, hgrown.openFds_subset, iff_of_false hleaked.openFds_ne hyes⟩

end Table

/-! ## All runs -/

/-- Over a run, descriptors are only added. -/
theorem grown_run {v w : Vfs} {tr : List FileCommand} (htop : Topped v)
    (h : commandLts.Run v tr w) :
    Topped w ∧ openFds v ⊆ openFds w :=
  h.invariant (P := fun t => Topped t ∧ openFds v ⊆ openFds t) (fun s c t hs hstep => by
    obtain ⟨htop', hsub, -⟩ := FileCommand.next_openFds hs.1 hstep
    exact ⟨htop', hs.2.trans hsub⟩) ⟨htop, Finset.Subset.refl _⟩

/-- None is added just if no command opens anything. -/
theorem openFds_run {v w : Vfs} {tr : List FileCommand} (htop : Topped v)
    (h : commandLts.Run v tr w) :
    openFds w = openFds v ↔ (commandLts.only fun s c _ => c.OpensNothing s).Run v tr w := by
  constructor
  · intro heq
    induction h with
    | nil => exact .nil
    | @snoc tr t u c hrun hstep ih =>
      obtain ⟨htop', hsub⟩ := grown_run htop hrun
      obtain ⟨-, hsub', hiff⟩ := FileCommand.next_openFds htop' hstep
      -- what is in between cannot be more than what is there in the end
      have hmid : openFds t = openFds v := Finset.Subset.antisymm (heq ▸ hsub') hsub
      exact (ih hmid).snoc ⟨hstep, hiff.1 (heq.trans hmid.symm)⟩
  · intro hall
    have hend := hall.invariant (P := fun t => Topped t ∧ openFds t = openFds v)
      (fun s c t hs hstep => by
      obtain ⟨htop', -, hiff⟩ := FileCommand.next_openFds hs.1 hstep.1
      exact ⟨htop', (hiff.2 hstep.2).trans hs.2⟩) ⟨htop, rfl⟩
    exact hend.2

/-- **Commands leave the open descriptors alone** if and only if they open nothing: after any run of
commands, one more leaves the set as it is just if it opens nothing, and the run has left the number
as it was just if none of its commands has opened anything. -/
theorem openFds_iff {v w : Vfs} {tr : List FileCommand} (htop : Topped v)
    (hrun : commandLts.Run v tr w) :
    (∀ (c : FileCommand) (u : Vfs), c.Next w u → (openFds u = openFds w ↔ c.OpensNothing w)) ∧
    ((openFds w).card = (openFds v).card ↔
      (commandLts.only fun s c _ => c.OpensNothing s).Run v tr w) := by
  obtain ⟨htop', hsub⟩ := grown_run htop hrun
  refine ⟨fun c u hnext => (FileCommand.next_openFds htop' hnext).2.2, ?_⟩
  rw [← openFds_run htop hrun]
  constructor
  · intro hcard
    exact (Finset.eq_of_subset_of_card_le hsub (Nat.le_of_eq hcard)).symm
  · intro heq
    rw [heq]

/-- Calls of the VFS reach no other states. -/
theorem topped_reachable {m : ByteMem} {cwd : Str} {s : FdState}
    (h : fdLts.Reachable (FdState.init m cwd) s) : Topped s.v := (fdInv_run h).above

/-- `vfs_init` leaves such a state. -/
theorem topped_vfsInit (m : ByteMem) (cwd : Str) : Topped (vfsInit m cwd) :=
  topped_reachable (.refl (FdState.init m cwd))

/-- `mkdir a` and `touch a` open nothing that stays open. -/
theorem openFds_iff_touch : ∃ w, commandLts.Run (vfsInit (fun _ => 0) [slash])
      [.call (.mkdir (str ['a'])), .call (.touch (str ['a']))] w ∧
    (openFds w).card = (openFds (vfsInit (fun _ => 0) [slash])).card := by
  obtain ⟨v, hv⟩ : ∃ v, v = vfsInit (fun _ => 0) [slash] := ⟨_, rfl⟩
  have htop : Topped v := hv ▸ topped_vfsInit _ _
  rw [← hv]
  have hall : (commandLts.only fun s c _ => c.OpensNothing s).Run v
      (([] ++ [.call (.mkdir (str ['a']))]) ++ [.call (.touch (str ['a']))])
      (cmdTouch (cmdMkdir v (str ['a'])) (str ['a'])) :=
    .snoc (.snoc .nil ⟨rfl, trivial⟩) ⟨rfl, trivial⟩
  have hrun : commandLts.Run v
    (([] ++ [.call (.mkdir (str ['a']))]) ++ [.call (.touch (str ['a']))])
      (cmdTouch (cmdMkdir v (str ['a'])) (str ['a'])) :=
    .snoc (.snoc .nil rfl) rfl
  exact ⟨_, hrun, (openFds_iff htop hrun).2.2 hall⟩

/-- **`cd /` leaves a descriptor open**, and so does the next one. -/
theorem cd_leaves_open : ∃ w u, commandLts.Run (vfsInit (fun _ => 0) [slash])
    [.call (.cd [slash])] w ∧
    (FileCommand.call (.cd [slash])).Next w u ∧ openFds (vfsInit (fun _ => 0) [slash]) = ∅ ∧
    openFds w = {0} ∧ openFds u = {0, 1} := by
  obtain ⟨w, hw⟩ : ∃ w, w = (cmdCd (vfsInit (fun _ => 0) [slash]) [slash]).1 := ⟨_, rfl⟩
  have hrun : commandLts.Run (vfsInit (fun _ => 0) [slash]) ([] ++ [.call (.cd [slash])]) w :=
    .snoc .nil hw
  refine ⟨w, (cmdCd w [slash]).1, hrun, rfl, rfl, ?_, ?_⟩
  · rw [hw]
    decide +kernel
  · rw [hw]
    decide +kernel

end OsArm
