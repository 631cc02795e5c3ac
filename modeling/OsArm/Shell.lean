import OsArm.Ram.Paths
import OsArm.Ram.Streams
import OsArm.Vfs.Descriptors
import OsArm.Vfs.Routing

/-!
# Moving files (`shell.c`)

`cmd_mv` copies with `cmd_cp` and then removes the source, whether the copy was made or not.
`cmd_cp` closes neither of its descriptors and tells nobody how it ended.  Console output is
left out.

* `cmdCp`, `cmdMv` — the commands; the copy loop has fuel.
* `copyLoop_copies` — the loop ends, and the new file has the bytes of the old one.
* `cmdCp_spec` — what a copy does to the files, in every state.
* `ramBounded_run` — in every run of VFS calls the files fit their slots.
* `MovesSafely` — after a move the source is still there or the destination has its bytes, and the
  source is there as it was if the copy failed.
* `movesSafely_iff` — that is so exactly where `KeepsData` holds before the move.
-/

namespace OsArm

/-! ## The commands -/

/-- `" "`. -/
def blank : UInt8 := 32

/-- `sizeof(buf)` of `cmd_cp`. -/
def copyBuf : Nat := 1024

/-- The loop of `cmd_cp`; `none` when it goes around more often than `fuel`. -/
def copyLoop : Nat → Vfs → Int → Int → Option Vfs
  | 0, _, _, _ => none
  | fuel + 1, v, srcFd, dstFd =>
    match vfsRead v srcFd copyBuf with
    | (none, v) => some v
    | (some buf, v) =>
      if buf = [] then some v
      else
        let (written, v) := vfsWrite v dstFd buf
        if written < 0 ∨ written ≠ buf.length then some v else copyLoop fuel v srcFd dstFd

/-- The two arguments of `cmd_cp` and `cmd_mv`. -/
def twoArgs (args : Str) : Option (Str × Str) :=
  match strtokR args [blank] with
  | none => none
  | some (src, save) => (strtokR save [blank]).map fun dst => (src, dst.1)

/-- `cmd_cp`. -/
def cmdCp (fuel : Nat) (v : Vfs) (args : Str) : Option Vfs :=
  match twoArgs args with
  | none => some v
  | some (src, dst) =>
    let (srcFd, v) := vfsOpen v src
    if srcFd < 0 then some v
    else
      let (dstFd, v) := vfsCreate v dst
      if dstFd < 0 then some v else copyLoop fuel v srcFd dstFd

/-- Whether the loop of `cmd_cp` ends with a write or a read error. -/
def copyLoopFails : Nat → Vfs → Int → Int → Option Bool
  | 0, _, _, _ => none
  | fuel + 1, v, srcFd, dstFd =>
    match vfsRead v srcFd copyBuf with
    | (none, _) => some true
    | (some buf, v) =>
      if buf = [] then some false
      else
        let (written, v) := vfsWrite v dstFd buf
        if written < 0 ∨ written ≠ buf.length then some true else copyLoopFails fuel v srcFd dstFd

/-- Whether `cmd_cp` fails: it then prints a message. -/
def cmdCpFails (fuel : Nat) (v : Vfs) (args : Str) : Option Bool :=
  match twoArgs args with
  | none => some true
  | some (src, dst) =>
    let (srcFd, v) := vfsOpen v src
    if srcFd < 0 then some true
    else
      let (dstFd, v) := vfsCreate v dst
      if dstFd < 0 then some true else copyLoopFails fuel v srcFd dstFd

/-- `cmd_mv`; what `vfs_unlink` answers only makes a message. -/
def cmdMv (fuel : Nat) (v : Vfs) (args : Str) : Option Vfs :=
  match twoArgs args with
  | none => some v
  | some (src, dst) =>
    (cmdCp fuel v (src ++ [blank] ++ dst)).map fun v => (vfsUnlink v src).2

/-- More fuel makes no difference. -/
theorem eq_of_runs {α : Type} {f : Nat → Option α} {v w : α} {n m : Nat}
    (hv : ∀ fuel, n ≤ fuel → f fuel = some v) (hw : ∀ fuel, m ≤ fuel → f fuel = some w) : v = w :=
  Option.some.inj ((hv (max n m) (Nat.le_max_left n m)).symm.trans
    (hw (max n m) (Nat.le_max_right n m)))

/-! ## Their arguments -/

/-- An argument of `mv`: a path under `/tmp/` that fits a slot.  The arguments are cut at blanks. -/
structure TmpPath where
  bytes : Str
  tmp : tmpSlash <+: bytes
  length_lt : bytes.length < maxPath
  nul_free : NulFree bytes
  no_blank : blank ∉ bytes

/-- What `strtok_r` asks of the bytes of a word. -/
theorem decide_notMem_blank {s : Str} (hs : blank ∉ s) :
    ∀ x ∈ s, decide (x ∉ [blank]) = true := by
  intro x hx
  simp only [List.mem_singleton, decide_eq_true_eq]
  rintro rfl
  exact hs hx

/-- A word ends in front of a blank or at the end. -/
theorem strtokR_stop {s t : Str} (hne : s ≠ []) (hs : blank ∉ s) (ht : ∀ x ∈ t.head?, x = blank) :
    strtokR (s ++ t) [blank] = some (s, t.drop 1) := by
  have hcs := decide_notMem_blank hs
  have hstop : (t.takeWhile fun x => decide (x ∉ [blank])) = [] ∧
      (t.dropWhile fun x => decide (x ∉ [blank])) = t := by
    cases t with
    | nil => exact ⟨rfl, rfl⟩
    | cons x t =>
      have hx : x = blank := ht x rfl
      exact ⟨List.takeWhile_cons_of_neg (by simp [hx]), List.dropWhile_cons_of_neg (by simp [hx])⟩
  cases s with
  | nil => exact absurd rfl hne
  | cons c cs =>
    have hc : c ≠ blank := fun heq => hs (heq ▸ List.mem_cons_self)
    unfold strtokR
    rw [List.cons_append, List.dropWhile_cons_of_neg (by simpa using hc)]
    dsimp only
    rw [← List.cons_append, List.takeWhile_append_of_pos hcs, List.dropWhile_append_of_pos hcs,
      hstop.1, hstop.2, List.append_nil]

theorem strtokR_word {s t : Str} (hne : s ≠ []) (hs : blank ∉ s) :
    strtokR (s ++ blank :: t) [blank] = some (s, t) :=
  strtokR_stop hne hs fun _ hx => (Option.some.inj hx).symm

theorem strtokR_last {s : Str} (hne : s ≠ []) (hs : blank ∉ s) :
    strtokR s [blank] = some (s, []) := by
  have hstop := strtokR_stop (t := []) hne hs fun x hx => by cases hx
  rwa [List.append_nil] at hstop

theorem TmpPath.ne_nil (p : TmpPath) : p.bytes ≠ [] := by
  obtain ⟨rest, hrest⟩ := p.tmp
  rw [← hrest]
  simp [tmpSlash, str]

/-- Two words come out as they went in. -/
theorem twoArgs_join {src dst : Str} (hne : src ≠ []) (hsrc : blank ∉ src) (hne' : dst ≠ [])
    (hdst : blank ∉ dst) : twoArgs (src ++ [blank] ++ dst) = some (src, dst) := by
  rw [List.append_assoc, List.singleton_append]
  unfold twoArgs
  rw [strtokR_word hne hsrc]
  dsimp only
  rw [strtokR_last hne' hdst]
  rfl

theorem twoArgs_eq (src dst : TmpPath) :
    twoArgs (src.bytes ++ [blank] ++ dst.bytes) = some (src.bytes, dst.bytes) :=
  twoArgs_join src.ne_nil src.no_blank dst.ne_nil dst.no_blank

/-- What `cmd_mv` hands to `cmd_cp` has its own two arguments. -/
theorem twoArgs_twoArgs {args src dst : Str} (h : twoArgs args = some (src, dst)) :
    twoArgs (src ++ [blank] ++ dst) = some (src, dst) := by
  unfold twoArgs at h
  cases hfirst : strtokR args [blank] with
  | none =>
    rw [hfirst] at h
    cases h
  | some r =>
    obtain ⟨word, save⟩ := r
    rw [hfirst] at h
    obtain ⟨⟨word', rest⟩, hsecond, heq⟩ := Option.map_eq_some_iff.1 h
    obtain ⟨rfl, rfl⟩ := Prod.mk.inj heq
    obtain ⟨hne, hword⟩ := strtokR_token hfirst
    obtain ⟨hne', hword'⟩ := strtokR_token hsecond
    exact twoArgs_join hne (fun hmem => hword blank hmem List.mem_cons_self) hne'
      fun hmem => hword' blank hmem List.mem_cons_self

/-! ## The copy loop -/

theorem getFile_natCast {v : Vfs} {k : Nat} (hk : k < maxFd) : getFile v k = v.fdTable k := by
  unfold getFile
  rw [if_neg (by omega), Int.toNat_natCast]

/-- What a copy into slot `j` leaves alone. -/
structure Kept (v v' : Vfs) (j : Nat) : Prop where
  mounts : v'.mounts = v.mounts
  used : ∀ k, (v'.ram.files k).used = (v.ram.files k).used
  files : ∀ k, k ≠ j → v'.ram.files k = v.ram.files k
  path : ∀ x, x < contentOff → (v'.ram.files j).mem x = (v.ram.files j).mem x

theorem Kept.trans {v v' v'' : Vfs} {j : Nat} (h : Kept v v' j) (h' : Kept v' v'' j) :
    Kept v v'' j where
  mounts := h'.mounts.trans h.mounts
  used k := (h'.used k).trans (h.used k)
  files k hk := (h'.files k hk).trans (h.files k hk)
  path x hx := (h'.path x hx).trans (h.path x hx)

/-- **The copy of slot `i` into slot `j` has come to `p`**, through the descriptors `s` and
`d`. -/
structure Copying (v : Vfs) (s d i j p : Nat) : Prop where
  src_lt : s < maxFd
  dst_lt : d < maxFd
  fd_ne : s ≠ d
  ne : i ≠ j
  src : v.fdTable s = some { fOps := .ramfs, privateData := i, fPos := p }
  dst : v.fdTable d = some { fOps := .ramfs, privateData := j, fPos := p }
  bounded : (v.ram.files i).size ≤ maxContent
  le : p ≤ (v.ram.files i).size
  size : (v.ram.files j).size = p
  copied : (v.ram.files j).bytes = (v.ram.files i).bytes.take p

namespace Copying

variable {v : Vfs} {s d i j p : Nat}

/-- What the loop reads, and where the source then stands. -/
theorem read (h : Copying v s d i j p) :
    vfsRead v s copyBuf = (some (((v.ram.files i).bytes.drop p).take copyBuf),
      v.setFile s { fOps := .ramfs, privateData := i,
                    fPos := p + (((v.ram.files i).bytes.drop p).take copyBuf).length }) := by
  have hle := h.le
  have hbounded := h.bounded
  unfold vfsRead
  rw [getFile_natCast h.src_lt, h.src]
  dsimp only
  rw [ramfsRead_eq hle hbounded (by dsimp only; rw [maxContent] at hbounded; rw [copyBuf]; omega)]

/-- At the end of the source the loop stops. -/
theorem stop (h : Copying v s d i j p) (hp : p = (v.ram.files i).size) :
    ∃ v', Kept v v' j ∧ v'.ram = v.ram ∧ ∀ fuel, copyLoop (fuel + 1) v s d = some v' ∧
      copyLoopFails (fuel + 1) v s d = some false := by
  have hlen : (v.ram.files i).bytes.length = p := by rw [RamfsFile.bytes, length_memcpyFrom, hp]
  have hread := h.read
  rw [List.drop_of_length_le (Nat.le_of_eq hlen), List.take_nil] at hread
  refine ⟨v.setFile s { fOps := .ramfs, privateData := i, fPos := p + ([] : List UInt8).length },
    ⟨rfl, fun _ => rfl, fun _ _ => rfl, fun _ _ => rfl⟩, rfl, ?_⟩
  intro fuel
  rw [copyLoop, copyLoopFails, hread]
  dsimp only
  exact ⟨if_pos rfl, if_pos rfl⟩

/-- **One turn** copies what it reads. -/
theorem step (h : Copying v s d i j p) (hp : p < (v.ram.files i).size) :
    ∃ v' q, p < q ∧ Copying v' s d i j q ∧ Kept v v' j ∧
      ∀ fuel, copyLoop (fuel + 1) v s d = copyLoop fuel v' s d ∧
        copyLoopFails (fuel + 1) v s d = copyLoopFails fuel v' s d := by
  have hread := h.read
  have hle := h.le
  have hbounded := h.bounded
  generalize hbuf : ((v.ram.files i).bytes.drop p).take copyBuf = buf at hread
  have hlen : buf.length = min copyBuf ((v.ram.files i).size - p) := by
    rw [← hbuf, List.length_take, List.length_drop, RamfsFile.bytes, length_memcpyFrom]
  have hpos : 0 < buf.length := by
    rw [hlen, copyBuf]
    omega
  have hfits : p + buf.length ≤ (v.ram.files i).size := by omega
  generalize hv₁ : v.setFile s { fOps := .ramfs, privateData := i, fPos := p + buf.length } = v₁
    at hread
  have hram : v₁.ram = v.ram := by rw [← hv₁]; rfl
  have hdst : v₁.fdTable d = some { fOps := .ramfs, privateData := j, fPos := p } := by
    rw [← hv₁, ← h.dst]
    exact if_neg (by rw [Int.toNat_natCast]; exact Ne.symm h.fd_ne)
  have hsrc : v₁.fdTable s = some { fOps := .ramfs, privateData := i, fPos := p + buf.length } := by
    rw [← hv₁]
    exact if_pos (Int.toNat_natCast s).symm
  have hcap : buf.length = min buf.length (maxContent - p) := by omega
  have hwrite : ramfsWrite v₁.ram { fOps := .ramfs, privateData := j, fPos := p } buf =
      (buf.length, { fOps := .ramfs, privateData := j, fPos := p + buf.length },
        v₁.ram.setFile j { v₁.ram.files j with
          mem := memcpyTo (v₁.ram.files j).mem (contentOff + p) buf buf.length
          size := max (v₁.ram.files j).size (p + buf.length) }) :=
    ramfsWrite_eq (by dsimp only; rw [hram, h.size]) (by dsimp only; rw [hram, h.size]; omega)
      (by dsimp only; rw [maxContent] at hbounded; omega) hcap
  rw [hram] at hwrite
  -- the slot and the state after the write
  obtain ⟨f, hf⟩ : ∃ f : RamfsFile, f = { v.ram.files j with
    mem := memcpyTo (v.ram.files j).mem (contentOff + p) buf buf.length
    size := max (v.ram.files j).size (p + buf.length) } := ⟨_, rfl⟩
  rw [← hf] at hwrite
  have hcall : vfsWrite v₁ d buf = ((buf.length : Int),
      { v₁.setFile d { fOps := .ramfs, privateData := j, fPos := p + buf.length } with
        ram := v.ram.setFile j f }) := by
    unfold vfsWrite
    rw [getFile_natCast h.dst_lt, hdst]
    dsimp only
    rw [hram, hwrite]
  have hother : ∀ k, k ≠ j → (v.ram.setFile j f).files k = v.ram.files k := fun k hk => if_neg hk
  have hslot : (v.ram.setFile j f).files j = f := if_pos rfl
  refine ⟨{ v₁.setFile d { fOps := .ramfs, privateData := j, fPos := p + buf.length } with
      ram := v.ram.setFile j f }, p + buf.length, by omega,
    ⟨h.src_lt, h.dst_lt, h.fd_ne, h.ne, ?_, ?_, ?_, ?_, ?_, ?_⟩,
    ⟨?_, fun k => ?_, hother, fun x hx => ?_⟩, fun fuel => ?_⟩
  · rw [← hsrc]
    exact if_neg (by rw [Int.toNat_natCast]; exact h.fd_ne)
  · exact if_pos (Int.toNat_natCast d).symm
  · dsimp only
    rwa [hother i h.ne]
  · dsimp only
    rwa [hother i h.ne]
  · dsimp only
    rw [hslot, hf]
    dsimp only
    rw [h.size]
    omega
  · dsimp only
    have hcopied := h.copied
    rw [RamfsFile.bytes, h.size] at hcopied
    rw [hother i h.ne, hslot, RamfsFile.bytes, hf]
    dsimp only
    rw [h.size, memcpyFrom_memcpyTo (Nat.le_refl p) (Nat.le_refl _), hcopied, List.take_length,
      splice, List.take_take, Nat.min_self, List.drop_of_length_le (by simp), List.append_nil,
      List.take_add, ← hbuf, List.length_take, ← List.take_take, List.take_length]
  · rw [← hv₁]
    rfl
  · dsimp only
    by_cases hk : k = j
    · rw [hk, hslot, hf]
    · rw [hother k hk]
  · dsimp only
    rw [hslot, hf]
    dsimp only
    rw [memcpyTo_eq, ByteMem.blit_outside (by omega)]
  · rw [copyLoop, copyLoopFails, hread]
    dsimp only
    rw [if_neg (List.ne_nil_of_length_pos hpos), if_neg (List.ne_nil_of_length_pos hpos), hcall]
    dsimp only
    rw [if_neg (by omega), if_neg (by omega)]
    exact ⟨rfl, rfl⟩

/-- **The loop ends, and the destination then has the bytes of the source.** -/
theorem copyLoop_copies (h : Copying v s d i j p) :
    ∃ v', Kept v v' j ∧ (v'.ram.files j).bytes = (v.ram.files i).bytes ∧
      ∀ fuel, (v.ram.files i).size - p < fuel → copyLoop fuel v s d = some v' ∧
        copyLoopFails fuel v s d = some false := by
  induction hn : (v.ram.files i).size - p using Nat.strong_induction_on generalizing v p with
  | _ n ih =>
    rcases Nat.lt_or_eq_of_le h.le with hlt | heq
    · obtain ⟨v₁, q, hpq, h₁, hkept, hturn⟩ := h.step hlt
      have hsrc := hkept.files i h.ne
      obtain ⟨v', hkept', hbytes, hrun⟩ := ih ((v₁.ram.files i).size - q)
        (by rw [hsrc]; omega) h₁ rfl
      refine ⟨v', hkept.trans hkept', by rw [hbytes, hsrc], fun fuel hfuel => ?_⟩
      obtain ⟨fuel, rfl⟩ : ∃ f, fuel = f + 1 := ⟨fuel - 1, by omega⟩
      rw [(hturn fuel).1, (hturn fuel).2]
      exact hrun fuel (by rw [hsrc]; omega)
    · obtain ⟨v', hkept, hram, hrun⟩ := h.stop heq
      have hlen : (v.ram.files i).bytes.length = p := by
        rw [RamfsFile.bytes, length_memcpyFrom, heq]
      refine ⟨v', hkept, ?_, ?_⟩
      · rw [hram, h.copied, List.take_of_length_le (Nat.le_of_eq hlen)]
      · intro fuel hfuel
        obtain ⟨fuel, rfl⟩ : ∃ f, fuel = f + 1 := ⟨fuel - 1, by omega⟩
        exact hrun fuel

end Copying

/-! ## A whole copy -/

/-- What opening the path and reading to the end gives. -/
def fileContent (ram : RamFs) (path : Str) : Option (List UInt8) :=
  (findUsed ram path).map fun i => (ram.files i).bytes

/-- `cmd_cp` gets memory for two handles, a descriptor for the source, and the slot `j`. -/
structure Creates (v : Vfs) (j : Nat) : Prop where
  fd : v.nextFd < maxFd
  heap : ((kalloc v.heap sizeofVfsFile).bind fun x => kalloc x.2 sizeofVfsFile).isSome
  free : findFree v.ram = some j

section Copy

variable {v : Vfs} {i j : Nat} {src dst : TmpPath}

/-- `vfs_open` of a path in `/tmp`. -/
theorem vfsOpen_tmp (hns : v.ns = []) (p : TmpPath) :
    vfsOpen v p.bytes = withFd ((ramfsOpen v.heap v.ram p.bytes).1,
      { v with heap := (ramfsOpen v.heap v.ram p.bytes).2 }) := by
  have htarget : openTarget v.ns p.bytes = (.ramfs, p.bytes) := by
    rw [hns]
    have hselect : Selects v.heap 0 v.cwd p.bytes .ramfs p.bytes := selects_tmp p.tmp
    exact hselect.openPath
  rw [vfsOpen_eq, fsOpen, htarget]

/-- **Opening a path and reading to the end** gives `fileContent`, memory and a descriptor
being at hand. -/
theorem open_read (hns : v.ns = []) (p : TmpPath) {c : List UInt8}
    (hc : fileContent v.ram p.bytes = some c) (hsize : c.length ≤ maxContent)
    (hk : (kalloc v.heap sizeofVfsFile).isSome) (hfd : v.nextFd < maxFd) {count : Nat}
    (hcount : c.length ≤ count) (hmax : count < 2 ^ 64) :
    (vfsRead (vfsOpen v p.bytes).2 (vfsOpen v p.bytes).1 count).1 = some c := by
  obtain ⟨i, hi, rfl⟩ := Option.map_eq_some_iff.1 hc
  rw [RamfsFile.bytes, length_memcpyFrom] at hsize
  obtain ⟨⟨a, h₁⟩, hk⟩ := Option.isSome_iff_exists.1 hk
  have hopen : vfsOpen v p.bytes = allocFd { v with heap := h₁ }
      { fOps := .ramfs, privateData := i, fPos := 0 } := by
    rw [vfsOpen_tmp hns]
    simp only [ramfsOpen, hi, hk, withFd]
  rw [hopen, allocFd_of_lt (by dsimp only; exact hfd)]
  unfold vfsRead
  dsimp only
  rw [getFile_natCast hfd]
  dsimp only
  rw [if_pos rfl]
  dsimp only
  rw [ramfsRead_eq (Nat.zero_le _) hsize (by dsimp only; omega)]
  dsimp only
  rw [List.drop_zero, List.take_of_length_le hcount]

/-- `vfs_create` of a path in `/tmp`, with a free slot and memory for the handle. -/
theorem vfsCreate_tmp (p : TmpPath) {x : Nat × Heap} (hj : findFree v.ram = some j)
    (hk : kalloc v.heap sizeofVfsFile = some x) :
    ∃ f : RamfsFile, f.used = true ∧ f.size = 0 ∧ f.mem.CStringAt 0 p.bytes ∧
      vfsCreate v p.bytes = allocFd { v with heap := x.2, ram := v.ram.setFile j f }
        { fOps := .ramfs, privateData := j, fPos := 0 } := by
  obtain ⟨a, h⟩ := x
  refine ⟨
    { mem := (strcpy (v.ram.files j).mem 0 p.bytes).set contentOff 0, size := 0, used := true },
    rfl, rfl, ?_, ?_⟩
  · have hlt := p.length_lt
    refine (cstringAt_strcpy (v.ram.files j).mem 0 p.bytes).move ?_
    intro k hk
    have hne : 0 + k ≠ contentOff := by
      simp only [contentOff]
      omega
    exact ByteMem.set_of_ne hne
  · rw [vfsCreate_eq, fsCreate_tmp v p.tmp, ramfsCreate_tmp v.heap v.ram p.tmp]
    simp only [hj, hk, withFd]

/-- Without them nothing in use changes, and there is no descriptor. -/
theorem vfsCreate_tmp_fails (p : TmpPath)
    (h : findFree v.ram = none ∨ kalloc v.heap sizeofVfsFile = none) :
    (vfsCreate v p.bytes).1 = -1 ∧ (vfsCreate v p.bytes).2.mounts = v.mounts ∧
      ∀ k, (vfsCreate v p.bytes).2.ram.files k = v.ram.files k ∨
        (v.ram.files k).used = false ∧ ((vfsCreate v p.bytes).2.ram.files k).used = false := by
  rw [vfsCreate_eq, fsCreate_tmp v p.tmp, ramfsCreate_tmp v.heap v.ram p.tmp]
  cases hfree : findFree v.ram with
  | none => exact ⟨rfl, rfl, fun _ => Or.inl rfl⟩
  | some j =>
    have hk : kalloc v.heap sizeofVfsFile = none := by
      rcases h with h | h
      · rw [hfree] at h
        cases h
      · exact h
    simp only [hk, withFd]
    refine ⟨trivial, trivial, ?_⟩
    intro k
    by_cases hkj : k = j
    · subst hkj
      exact Or.inr ⟨(findFree_eq_some hfree).2, by rw [setFile_self]⟩
    · exact Or.inl (setFile_of_ne hkj)

/-- The calls that `cmd_cp` makes. -/
theorem cmdCp_eq {x y : Int × Vfs} (hopen : vfsOpen v src.bytes = x)
    (hcreate : vfsCreate x.2 dst.bytes = y) (fuel : Nat) :
    cmdCp fuel v (src.bytes ++ [blank] ++ dst.bytes) =
      if x.1 < 0 then some x.2 else if y.1 < 0 then some y.2 else copyLoop fuel y.2 x.1 y.1 := by
  subst hopen hcreate
  unfold cmdCp
  rw [twoArgs_eq]

theorem cmdCpFails_eq {x y : Int × Vfs} (hopen : vfsOpen v src.bytes = x)
    (hcreate : vfsCreate x.2 dst.bytes = y) (fuel : Nat) :
    cmdCpFails fuel v (src.bytes ++ [blank] ++ dst.bytes) =
      if x.1 < 0 then some true else if y.1 < 0 then some true
      else copyLoopFails fuel y.2 x.1 y.1 := by
  subst hopen hcreate
  unfold cmdCpFails
  rw [twoArgs_eq]

/-- A call that answers -1 ends `cmd_cp` with a message. -/
theorem cmdCp_stops {x y : Int × Vfs} (hopen : vfsOpen v src.bytes = x)
    (hcreate : vfsCreate x.2 dst.bytes = y) (fuel : Nat) :
    (x.1 = -1 → cmdCp fuel v (src.bytes ++ [blank] ++ dst.bytes) = some x.2 ∧
      cmdCpFails fuel v (src.bytes ++ [blank] ++ dst.bytes) = some true) ∧
    (0 ≤ x.1 → y.1 = -1 → cmdCp fuel v (src.bytes ++ [blank] ++ dst.bytes) = some y.2 ∧
      cmdCpFails fuel v (src.bytes ++ [blank] ++ dst.bytes) = some true) := by
  rw [cmdCp_eq hopen hcreate, cmdCpFails_eq hopen hcreate]
  constructor
  · intro hx
    rw [if_pos (by omega), if_pos (by omega)]
    exact ⟨rfl, rfl⟩
  · intro hx hy
    rw [if_neg (by omega), if_pos (by omega), if_neg (by omega), if_pos (by omega)]
    exact ⟨rfl, rfl⟩

/-- The rest of `cmd_cp`, the source being open and the slot and the handle at hand. -/
theorem cmdCp_creates (dst : TmpPath) {v₁ : Vfs} {y : Nat × Heap}
    (hopen : vfsOpen v src.bytes = ((v.nextFd : Int), v₁)) (hram : v₁.ram = v.ram)
    (hnext : v₁.nextFd = v.nextFd + 1)
    (htable : v₁.fdTable v.nextFd = some { fOps := .ramfs, privateData := i, fPos := 0 })
    (hfd : v.nextFd < maxFd) (hused : (v.ram.files i).used = true)
    (hsize : (v.ram.files i).size ≤ maxContent) (hj : findFree v.ram = some j)
    (hk : kalloc v₁.heap sizeofVfsFile = some y) :
    ∃ v' n, (∀ fuel, n ≤ fuel → cmdCp fuel v (src.bytes ++ [blank] ++ dst.bytes) = some v' ∧
        cmdCpFails fuel v (src.bytes ++ [blank] ++ dst.bytes) =
          some (decide (maxFd ≤ v.nextFd + 1))) ∧
      v'.mounts = v₁.mounts ∧ (∀ k, k ≠ j → v'.ram.files k = v.ram.files k) ∧
      HoldsPath v'.ram j dst.bytes ∧ (v'.ram.files j).bytes =
        if v.nextFd + 1 < maxFd then (v.ram.files i).bytes else [] := by
  have hij : i ≠ j := by
    rintro rfl
    rw [(findFree_eq_some hj).2] at hused
    cases hused
  obtain ⟨f, hfused, hfsize, hfpath, hcreate⟩ := vfsCreate_tmp dst (hram ▸ hj) hk
  have hfbytes : f.bytes = [] := by
    rw [RamfsFile.bytes, hfsize]
    rfl
  rw [hram] at hcreate
  have hother : ∀ k, k ≠ j → (v.ram.setFile j f).files k = v.ram.files k := fun k hk => if_neg hk
  have hslot : (v.ram.setFile j f).files j = f := if_pos rfl
  by_cases hfd₁ : v.nextFd + 1 < maxFd
  · obtain ⟨v₂, hv₂⟩ : ∃ v₂ : Vfs, v₂ = { v₁ with
      heap := y.2
      ram := v.ram.setFile j f
      fdTable := fun k => if k = v.nextFd + 1 then
        some { fOps := .ramfs, privateData := j, fPos := 0 } else v₁.fdTable k
      nextFd := v.nextFd + 1 + 1 } := ⟨_, rfl⟩
    have hcreate : vfsCreate v₁ dst.bytes = (((v.nextFd + 1 : Nat) : Int), v₂) := by
      rw [hcreate, allocFd_of_lt (by dsimp only; omega), hv₂]
      simp only [hnext]
    have hram₂ : v₂.ram = v.ram.setFile j f := by rw [hv₂]
    have hcopying : Copying v₂ v.nextFd (v.nextFd + 1) i j 0 := by
      refine ⟨hfd, hfd₁, by omega, hij, ?_, ?_, ?_, Nat.zero_le _, ?_, ?_⟩
      · rw [hv₂, ← htable]
        exact if_neg (by omega)
      · rw [hv₂]
        exact if_pos rfl
      · rwa [hram₂, hother i hij]
      · rwa [hram₂, hslot]
      · rw [hram₂, hslot, hfbytes, List.take_zero]
    obtain ⟨v', hkept, hbytes, hrun⟩ := hcopying.copyLoop_copies
    refine ⟨v', (v₂.ram.files i).size - 0 + 1, ?_, ?_, ?_, ⟨?_, ?_⟩, ?_⟩
    · intro fuel hfuel
      rw [cmdCp_eq hopen hcreate, cmdCpFails_eq hopen hcreate, decide_eq_false (by omega)]
      dsimp only
      rw [if_neg (by omega), if_neg (by omega), if_neg (by omega), if_neg (by omega)]
      exact hrun fuel (by omega)
    · rw [hkept.mounts, hv₂]
    · intro k hk
      rw [hkept.files k hk, hram₂, hother k hk]
    · rw [hkept.used, hram₂, hslot, hfused]
    · have hlt := dst.length_lt
      refine hfpath.move ?_
      intro k hk
      rw [hkept.path _ (by simp only [contentOff]; omega), hram₂, hslot]
    · rw [if_pos hfd₁, hbytes, hram₂, hother i hij]
  · rw [allocFd_of_le (by dsimp only; omega)] at hcreate
    refine ⟨{ v₁ with heap := y.2, ram := v.ram.setFile j f }, 0, ?_, rfl, hother, ⟨?_, ?_⟩, ?_⟩
    · intro fuel _
      rw [decide_eq_true (by omega)]
      exact (cmdCp_stops hopen hcreate fuel).2 (Int.natCast_nonneg _) rfl
    · dsimp only
      rw [hslot, hfused]
    · dsimp only
      rwa [hslot]
    · dsimp only
      rw [hslot, hfbytes, if_neg hfd₁]

/-- **What `cmd_cp` does to the files.**  The new slot has the destination's path and, if there
is a second descriptor, the bytes of the source; or no slot in use has changed. -/
theorem cmdCp_spec (dst : TmpPath) (hns : v.ns = []) (hi : findUsed v.ram src.bytes = some i)
    (hsize : (v.ram.files i).size ≤ maxContent) :
    ∃ v' failed n, (∀ fuel, n ≤ fuel → cmdCp fuel v (src.bytes ++ [blank] ++ dst.bytes) = some v' ∧
        cmdCpFails fuel v (src.bytes ++ [blank] ++ dst.bytes) = some failed) ∧
      v'.mounts = v.mounts ∧
      ((∃ j, Creates v j ∧ (∀ k, k ≠ j → v'.ram.files k = v.ram.files k) ∧
          HoldsPath v'.ram j dst.bytes ∧ ((v'.ram.files j).bytes =
            if v.nextFd + 1 < maxFd then (v.ram.files i).bytes else []) ∧
          failed = decide (maxFd ≤ v.nextFd + 1)) ∨
        (∀ j, ¬ Creates v j) ∧ (∀ k, v'.ram.files k = v.ram.files k ∨
          (v.ram.files k).used = false ∧ (v'.ram.files k).used = false) ∧ failed = true) := by
  obtain ⟨-, hused, -⟩ := findUsed_eq_some src.nul_free hi
  have hopen := vfsOpen_tmp hns src
  cases hk : kalloc v.heap sizeofVfsFile with
  | none =>
    have hopen : vfsOpen v src.bytes = (-1, v) := by
      rw [hopen]
      simp only [ramfsOpen, hi, hk, withFd]
    refine ⟨v, true, 0, ?_, rfl, Or.inr ⟨?_, fun k => Or.inl rfl, rfl⟩⟩
    · intro fuel _
      exact (cmdCp_stops hopen rfl fuel).1 rfl
    · intro j hj
      have hheap := hj.heap
      rw [hk] at hheap
      cases hheap
  | some x =>
    obtain ⟨a, h₁⟩ := x
    have hopen : vfsOpen v src.bytes = allocFd { v with heap := h₁ }
        { fOps := .ramfs, privateData := i, fPos := 0 } := by
      rw [hopen]
      simp only [ramfsOpen, hi, hk, withFd]
    by_cases hfd : v.nextFd < maxFd
    · obtain ⟨v₁, hv₁⟩ : ∃ v₁ : Vfs, v₁ = { v with
        heap := h₁
        fdTable := fun k => if k = v.nextFd then
          some { fOps := .ramfs, privateData := i, fPos := 0 } else v.fdTable k
        nextFd := v.nextFd + 1 } := ⟨_, rfl⟩
      have hopen : vfsOpen v src.bytes = ((v.nextFd : Int), v₁) := by
        rw [hopen, allocFd_of_lt (by dsimp only; exact hfd), hv₁]
      have hram : v₁.ram = v.ram := by rw [hv₁]
      have hheap : v₁.heap = h₁ := by rw [hv₁]
      have hmounts : v₁.mounts = v.mounts := by rw [hv₁]
      -- without a slot or memory `vfs_create` answers -1
      have hfails : (findFree v.ram = none ∨ kalloc h₁ sizeofVfsFile = none) →
          (∀ fuel, cmdCp fuel v (src.bytes ++ [blank] ++ dst.bytes) =
              some (vfsCreate v₁ dst.bytes).2 ∧
            cmdCpFails fuel v (src.bytes ++ [blank] ++ dst.bytes) = some true) ∧
          (vfsCreate v₁ dst.bytes).2.mounts = v.mounts ∧
          ∀ k, (vfsCreate v₁ dst.bytes).2.ram.files k = v.ram.files k ∨
            (v.ram.files k).used = false ∧
              ((vfsCreate v₁ dst.bytes).2.ram.files k).used = false := by
        intro h
        rw [← hram, ← hheap] at h
        obtain ⟨hret, hm, hfiles⟩ := vfsCreate_tmp_fails dst h
        rw [hram] at hfiles
        refine ⟨?_, hm.trans hmounts, hfiles⟩
        intro fuel
        exact (cmdCp_stops hopen rfl fuel).2 (Int.natCast_nonneg _) hret
      cases hj : findFree v.ram with
      | none =>
        obtain ⟨hrun, hm, hfiles⟩ := hfails (Or.inl hj)
        refine ⟨_, true, 0, fun fuel _ => hrun fuel, hm, Or.inr ⟨?_, hfiles, rfl⟩⟩
        intro j h
        have hfree := h.free
        rw [hj] at hfree
        cases hfree
      | some j =>
        cases hk₁ : kalloc h₁ sizeofVfsFile with
        | none =>
          obtain ⟨hrun, hm, hfiles⟩ := hfails (Or.inr hk₁)
          refine ⟨_, true, 0, fun fuel _ => hrun fuel, hm, Or.inr ⟨?_, hfiles, rfl⟩⟩
          intro j h
          have hheap := h.heap
          rw [hk, Option.bind_some, hk₁] at hheap
          cases hheap
        | some y =>
          have hcreates : Creates v j := by
            refine ⟨hfd, ?_, hj⟩
            rw [hk, Option.bind_some, hk₁]
            rfl
          obtain ⟨v', n, hrun, hm, hfiles, hholds, hbytes⟩ := cmdCp_creates dst hopen hram
            (by rw [hv₁]) (by rw [hv₁]; exact if_pos rfl) hfd hused hsize hj (hheap ▸ hk₁)
          exact ⟨v', _, n, hrun, hm.trans hmounts,
            Or.inl ⟨j, hcreates, hfiles, hholds, hbytes, rfl⟩⟩
    · rw [allocFd_of_le (by dsimp only; omega)] at hopen
      refine ⟨{ v with heap := h₁ }, true, 0, ?_, rfl,
        Or.inr ⟨fun j hj => hfd hj.fd, fun k => Or.inl rfl, rfl⟩⟩
      intro fuel _
      exact (cmdCp_stops hopen rfl fuel).1 rfl

end Copy

/-! ## The sizes of files -/

/-- No file is larger than its slot, and no handle stands further on. -/
structure RamBounded (v : Vfs) : Prop where
  size : ∀ k, (v.ram.files k).size ≤ maxContent
  pos : ∀ k file, v.fdTable k = some file → file.fOps = .ramfs → file.fPos ≤ maxContent

section Sizes

variable {v : Vfs} {ram : RamFs} {file : VfsFile}

theorem setFile_size {i : Nat} {f : RamfsFile} (h : ∀ k, (ram.files k).size ≤ maxContent)
    (hf : f.size ≤ maxContent) (k : Nat) : ((ram.setFile i f).files k).size ≤ maxContent := by
  by_cases hk : k = i
  · rw [hk, setFile_self]
    exact hf
  · rw [setFile_of_ne hk]
    exact h k

/-- A creation makes an empty file. -/
theorem ramfsCreate_size (h : ∀ k, (ram.files k).size ≤ maxContent) (heap : Heap) (path : Str) :
    (∀ k, ((ramfsCreate heap ram path).2.2.files k).size ≤ maxContent) ∧
      ∀ file, (ramfsCreate heap ram path).1 = some file → file.fPos = 0 := by
  unfold ramfsCreate
  cases findFree ram with
  | none => exact ⟨h, fun file hfile => by cases hfile⟩
  | some i =>
    dsimp only
    cases kalloc heap sizeofVfsFile with
    | none => exact ⟨setFile_size h (Nat.zero_le _), fun file hfile => by cases hfile⟩
    | some x =>
      refine ⟨setFile_size h (Nat.zero_le _), ?_⟩
      intro file hfile
      cases hfile
      rfl

/-- A read stops at the end of the file. -/
theorem ramfsRead_pos (hpos : file.fPos ≤ maxContent)
    (hsize : (ram.files file.privateData).size ≤ maxContent) (count : Nat) :
    (ramfsRead ram file count).2.fPos ≤ maxContent := by
  unfold ramfsRead
  dsimp only
  split
  · exact hpos
  · dsimp only
    split
    · exact (Nat.mod_le _ _).trans (by omega)
    · omega

/-- A write stops at the end of the slot. -/
theorem ramfsWrite_size (hpos : file.fPos ≤ maxContent)
    (hsize : ∀ k, (ram.files k).size ≤ maxContent) (buf : List UInt8) :
    (ramfsWrite ram file buf).2.1.fPos ≤ maxContent ∧
      ∀ k, ((ramfsWrite ram file buf).2.2.files k).size ≤ maxContent := by
  unfold ramfsWrite
  dsimp only
  generalize hn : (if (file.fPos + buf.length) % 2 ^ 64 > maxContent then
    (2 ^ 64 + maxContent - file.fPos) % 2 ^ 64 else buf.length) = n
  have hend : (file.fPos + n) % 2 ^ 64 ≤ maxContent := by
    rw [← hn]
    rw [maxContent] at hpos ⊢
    split <;> omega
  split
  · refine ⟨hend, fun k => setFile_size hsize ?_ k⟩
    dsimp only
    split
    · exact hend
    · exact hsize _
  · exact ⟨hpos, hsize⟩

/-- A handle on AbyssFS is one. -/
theorem abyssfsCreate_fOps {heap : Heap} {fs : AbyssFs} {cwd path : Str}
    (h : (abyssfsCreate heap fs cwd path).1 = some file) : file.fOps = .abyssfs := by
  unfold abyssfsCreate at h
  dsimp only at h
  split at h
  · cases h
  · split at h
    · cases h
    · split at h
      · cases h
      · cases h
        rfl

namespace RamBounded

/-- Whatever keeps the sizes and the descriptors. -/
theorem frame (h : RamBounded v) {v' : Vfs} (hsize : ∀ k, (v'.ram.files k).size ≤ maxContent)
    (htable : v'.fdTable = v.fdTable) : RamBounded v' :=
  ⟨hsize, fun k file hk => h.pos k file (htable ▸ hk)⟩

/-- One handle more or a handle changed. -/
theorem put (h : RamBounded v) {v' : Vfs} {n : Nat}
    (hsize : ∀ k, (v'.ram.files k).size ≤ maxContent)
    (hfile : file.fOps = .ramfs → file.fPos ≤ maxContent)
    (htable : v'.fdTable = fun k => if k = n then some file else v.fdTable k) :
    RamBounded v' := by
  refine ⟨hsize, ?_⟩
  intro k g hk hops
  rw [htable] at hk
  dsimp only at hk
  split at hk
  · cases hk
    exact hfile hops
  · exact h.pos k g hk hops

theorem opening (h : RamBounded v) (c : OpenCall) : RamBounded (c.apply v).2 := by
  have hfile : (∀ k, ((c.file v).2.ram.files k).size ≤ maxContent) ∧
      ∀ file, (c.file v).1 = some file → file.fOps = .ramfs → file.fPos ≤ maxContent := by
    cases c with
    | create path =>
      show (∀ k, ((fsCreate v path).2.ram.files k).size ≤ maxContent) ∧
        ∀ file, (fsCreate v path).1 = some file → file.fOps = .ramfs → file.fPos ≤ maxContent
      unfold fsCreate
      cases createTarget v.mounts v.cwd path with
      | none => exact ⟨h.size, fun file hfile => by cases hfile⟩
      | some target =>
        obtain ⟨fs, p⟩ := target
        cases fs with
        | ramfs =>
          obtain ⟨hsize, hpos⟩ := ramfsCreate_size h.size v.heap p
          exact ⟨hsize, fun file hfile _ => by rw [hpos file hfile]; exact Nat.zero_le _⟩
        | abyssfs =>
          refine ⟨h.size, ?_⟩
          intro file hfile hops
          rw [abyssfsCreate_fOps hfile] at hops
          cases hops
    | openPath path =>
      refine ⟨h.size, ?_⟩
      intro file hfile _
      have hfile : (fsOpen v path).1 = some file := hfile
      have hzero : file.fPos = 0 := by
        unfold fsOpen at hfile
        dsimp only at hfile
        split at hfile
        · unfold ramfsOpen at hfile
          split at hfile
          · cases hfile
          · split at hfile <;> cases hfile
            rfl
        · unfold abyssfsOpen at hfile
          split at hfile <;> cases hfile
          rfl
      rw [hzero]
      exact Nat.zero_le _
  have htable := (c.file_frame v).1
  rw [c.apply_eq]
  generalize c.file v = x at hfile htable
  obtain ⟨file, w⟩ := x
  cases file with
  | none => exact h.frame hfile.1 htable
  | some file =>
    by_cases hlt : w.nextFd < maxFd
    · rw [withFd, allocFd_of_lt hlt]
      exact h.put hfile.1 (hfile.2 file rfl) (by rw [← htable])
    · rw [withFd, allocFd_of_le (Nat.not_lt.1 hlt)]
      exact h.frame hfile.1 htable

theorem read (h : RamBounded v) (fd : Int) (count : Nat) : RamBounded (vfsRead v fd count).2 := by
  unfold vfsRead
  cases hget : getFile v fd with
  | none => exact h
  | some file =>
    have hpos := h.pos _ file (getFile_table hget).2
    dsimp only
    cases hops : file.fOps with
    | ramfs => exact h.put h.size (fun _ => ramfsRead_pos (hpos hops) (h.size _) count) rfl
    | abyssfs =>
      refine h.put h.size (fun hram => ?_) rfl
      have hsame := congrArg Prod.fst (abyssfsRead_object v.abyss file count)
      rw [VfsFile.object, VfsFile.object] at hsame
      dsimp only at hsame
      rw [hram, hops] at hsame
      cases hsame

theorem write (h : RamBounded v) (fd : Int) (buf : List UInt8) :
    RamBounded (vfsWrite v fd buf).2 := by
  unfold vfsWrite
  cases hget : getFile v fd with
  | none => exact h
  | some file =>
    have hpos := h.pos _ file (getFile_table hget).2
    dsimp only
    cases hops : file.fOps with
    | ramfs =>
      obtain ⟨hend, hsize⟩ := ramfsWrite_size (hpos hops) h.size buf
      exact h.put hsize (fun _ => hend) rfl
    | abyssfs => exact h.frame h.size rfl

theorem close (h : RamBounded v) (fd : Int) : RamBounded (vfsClose v fd).2 := by
  unfold vfsClose
  cases getFile v fd with
  | none => exact h
  | some file =>
    refine ⟨h.size, ?_⟩
    intro k g hk hops
    dsimp only at hk
    split at hk
    · cases hk
    · exact h.pos k g hk hops

/-- The calls on paths empty a slot at most. -/
theorem unlink (h : RamBounded v) (path : Str) : RamBounded (vfsUnlink v path).2 := by
  refine h.frame ?_ ((FdCall.paths_frame v).1 path).1
  unfold vfsUnlink
  cases unlinkTarget v.mounts v.cwd path with
  | none => exact h.size
  | some target =>
    obtain ⟨fs, p⟩ := target
    cases fs with
    | ramfs =>
      simp only [ramfsUnlink]
      cases findUsed v.ram p with
      | none => exact h.size
      | some i => exact setFile_size h.size (Nat.zero_le _)
    | abyssfs => exact h.size

theorem mkdir (h : RamBounded v) (path : Str) : RamBounded (vfsMkdir v path).2 := by
  refine h.frame ?_ ((FdCall.paths_frame v).2.1 path).1
  unfold vfsMkdir
  cases mkdirTarget v.mounts v.cwd path with
  | none => exact h.size
  | some target =>
    obtain ⟨fs, p⟩ := target
    cases fs with
    | ramfs =>
      simp only [ramfsMkdir]
      cases findFree v.ram with
      | none => exact h.size
      | some i => exact setFile_size h.size (Nat.zero_le _)
    | abyssfs => exact h.size

end RamBounded

theorem vfsReadDir_ram (before : UInt8) (v : Vfs) (path : Str) (count : Nat) :
    (vfsReadDir before v path count).2.ram = v.ram := by rw [vfsReadDir_snd]

theorem bind_ram (before : UInt8) (v : Vfs) (b : Binding) : (bind before v b).2.ram = v.ram := by
  have hold := vfsReadDir_ram before v b.oldPath 1
  unfold bind
  generalize vfsReadDir before v b.oldPath 1 = x at hold
  obtain ⟨entries, v₁⟩ := x
  cases entries with
  | none => exact hold
  | some entries =>
    have hnew := vfsReadDir_ram before v₁ b.newPath 1
    rw [← hold]
    dsimp only
    generalize vfsReadDir before v₁ b.newPath 1 = y at hnew
    obtain ⟨entries, v₂⟩ := y
    cases entries with
    | none => exact hnew
    | some entries =>
      dsimp only
      split <;> exact hnew

/-- **In every run of VFS calls** the files fit their slots. -/
theorem ramBounded_run {m : ByteMem} {cwd : Str} {s : FdState}
    (h : fdLts.Reachable (FdState.init m cwd) s) : RamBounded s.v := by
  have hinit : RamBounded (FdState.init m cwd).v := by
    refine ⟨fun _ => Nat.zero_le _, ?_⟩
    intro k file hfile
    have hnone : (FdState.init m cwd).v.fdTable k = none := rfl
    rw [hnone] at hfile
    cases hfile
  refine h.invariant (P := fun s => RamBounded s.v) (fun s c t hs hstep => ?_) hinit
  rw [show t = c.next s from hstep]
  cases c with
  | opening c => exact hs.opening c
  | read fd count => exact hs.read fd count
  | write fd buf => exact hs.write fd buf
  | close fd => exact hs.close fd
  | unlink path => exact hs.unlink path
  | mkdir path => exact hs.mkdir path
  | readDir before path count =>
    refine hs.frame (fun k => ?_) ((FdCall.paths_frame s.v).2.2 before path count).1
    rw [FdCall.next, FdCall.apply, vfsReadDir_ram]
    exact hs.size k
  | bind before b =>
    refine hs.frame (fun k => ?_) (bind_frame before s.v b).1
    rw [FdCall.next, FdCall.apply, bind_ram]
    exact hs.size k

end Sizes

/-! ## Removing -/

section Unlinked

variable {ram : RamFs} {k m : Nat} {p : Str}

/-- `ramfs_unlink` of the slot `m`. -/
def RamFs.unlinked (ram : RamFs) (m : Nat) : RamFs :=
  ram.setFile m { ram.files m with size := 0, used := false }

theorem unlinked_of_ne (h : k ≠ m) : (ram.unlinked m).files k = ram.files k := if_neg h

theorem holds_unlinked : HoldsPath (ram.unlinked m) k p ↔ k ≠ m ∧ HoldsPath ram k p := by
  by_cases hk : k = m
  · subst hk
    have hused : ((ram.unlinked k).files k).used = false := by
      rw [RamFs.unlinked, setFile_self]
    unfold HoldsPath
    rw [hused]
    simp
  · unfold HoldsPath
    rw [unlinked_of_ne hk]
    simp [hk]

/-- `vfs_unlink` of a path in `/tmp`. -/
theorem vfsUnlink_tmp {v : Vfs} {p : TmpPath} (hmounts : v.mounts = bootMounts)
    (hm : findUsed v.ram p.bytes = some m) :
    (vfsUnlink v p.bytes).2.ram = v.ram.unlinked m := by
  have htarget : unlinkTarget v.mounts v.cwd p.bytes = some (.ramfs, p.bytes) := by
    rw [hmounts]
    have hselect : Selects v.heap 0 v.cwd p.bytes .ramfs p.bytes := selects_tmp p.tmp
    exact hselect.unlink
  unfold vfsUnlink
  rw [htarget]
  simp only [ramfsUnlink, hm]
  rfl

end Unlinked

/-! ## Moving -/

/-- What is left of a file with the bytes `c` after its move. -/
def Survives (ram : RamFs) (src dst : TmpPath) (c : List UInt8) : Prop :=
  findUsed ram src.bytes = none → fileContent ram dst.bytes = some c

/-- **A move does no harm**: it ends; then the source can still be opened, or the destination can
and has the bytes; and if the copy failed, the source is there with its bytes. -/
def MovesSafely (v : Vfs) (src dst : TmpPath) (c : List UInt8) : Prop :=
  ∃ v' failed n, (∀ fuel, n ≤ fuel → cmdMv fuel v (src.bytes ++ [blank] ++ dst.bytes) = some v' ∧
      cmdCpFails fuel v (src.bytes ++ [blank] ++ dst.bytes) = some failed) ∧
    Survives v'.ram src dst c ∧ (failed = true → fileContent v'.ram src.bytes = some c)

/-- There is a slot of the path below `n` apart from `i`, and the first has the bytes `c`. -/
def NextHolds (ram : RamFs) (path : Str) (i n : Nat) (c : List UInt8) : Prop :=
  ∃ k < n, k ≠ i ∧ HoldsPath ram k path ∧ (∀ m < k, m ≠ i → ¬ HoldsPath ram m path) ∧
    (ram.files k).bytes = c

/-- **Before the move** from slot `i`.

* The copy is made.  Then another slot has the source's path, or the copy is the source again, or
  it is the first slot of the destination's path, or the first slot of that has the bytes already.
* The copy is an empty slot of the source's path, for want of a second descriptor.  Then that slot
  is removed in place of the source; or the next slot after the source's has the bytes.
* There is no copy, or it is an empty slot of another path.  Then the next slot of the source's
  path has the bytes. -/
def KeepsData (v : Vfs) (src dst : TmpPath) (i : Nat) : Prop :=
  (∃ j, Creates v j ∧ v.nextFd + 1 < maxFd ∧
    ((∃ k < maxFiles, k ≠ i ∧ HoldsPath v.ram k src.bytes) ∨ src.bytes = dst.bytes ∨
      (∀ k < j, ¬ HoldsPath v.ram k dst.bytes) ∨
      fileContent v.ram dst.bytes = some (v.ram.files i).bytes)) ∨
  (∃ j, Creates v j ∧ ¬ v.nextFd + 1 < maxFd ∧ src.bytes = dst.bytes ∧
    (j < i ∨ NextHolds v.ram src.bytes i j (v.ram.files i).bytes ∨
      (v.ram.files i).bytes = [] ∧ ∀ k < j, k ≠ i → ¬ HoldsPath v.ram k src.bytes)) ∨
  (∀ j, Creates v j → ¬ v.nextFd + 1 < maxFd ∧ src.bytes ≠ dst.bytes) ∧
    NextHolds v.ram src.bytes i maxFiles (v.ram.files i).bytes

section Move

variable {v : Vfs} {ram ram₁ : RamFs} {i j : Nat} {src dst : TmpPath} {c : List UInt8}

/-- The source is gone when no other slot has its path. -/
theorem findUsed_unlinked_none :
    findUsed (ram.unlinked i) src.bytes = none ↔
      ¬ ∃ k < maxFiles, k ≠ i ∧ HoldsPath ram k src.bytes := by
  rw [findUsed_eq_none src.nul_free]
  constructor
  · rintro h ⟨k, hk, hki, hholds⟩
    obtain ⟨hused, hpath⟩ := holds_unlinked.2 ⟨hki, hholds⟩
    exact h k hk hused hpath
  · intro h k hk hused hpath
    obtain ⟨hki, hholds⟩ := holds_unlinked.1 ⟨hused, hpath⟩
    exact h ⟨k, hk, hki, hholds⟩

/-- What is left under the path of the slot that was removed. -/
theorem fileContent_unlinked_self :
    fileContent (ram.unlinked i) src.bytes = some c ↔ NextHolds ram src.bytes i maxFiles c := by
  unfold fileContent NextHolds
  rw [Option.map_eq_some_iff]
  simp only [findUsed_eq_some_iff src.nul_free, holds_unlinked]
  constructor
  · rintro ⟨k, ⟨hk, ⟨hki, hholds⟩, hfirst⟩, hc⟩
    rw [unlinked_of_ne hki] at hc
    exact ⟨k, hk, hki, hholds, fun m hm hmi h => hfirst m hm ⟨hmi, h⟩, hc⟩
  · rintro ⟨k, hk, hki, hholds, hfirst, hc⟩
    rw [← unlinked_of_ne hki] at hc
    exact ⟨k, ⟨hk, ⟨hki, hholds⟩, fun m hm h => hfirst m hm h.1 h.2⟩, hc⟩

/-- Only slots of the path count, and the bytes of slots in use. -/
theorem nextHolds_congr {n : Nat}
    (hholds : ∀ k, HoldsPath ram₁ k src.bytes ↔ HoldsPath ram k src.bytes)
    (hbytes : ∀ k, HoldsPath ram k src.bytes → ram₁.files k = ram.files k) :
    NextHolds ram₁ src.bytes i n c ↔ NextHolds ram src.bytes i n c := by
  unfold NextHolds
  simp only [hholds]
  refine exists_congr fun k => and_congr_right fun _ => and_congr_right fun _ =>
    and_congr_right fun h => ?_
  rw [hbytes k h]

/-- Removing the source leaves the destination alone. -/
theorem fileContent_unlinked (hi : HoldsPath ram i src.bytes) (hne : src.bytes ≠ dst.bytes) :
    fileContent (ram.unlinked i) dst.bytes = fileContent ram dst.bytes := by
  have hholds : ∀ k, HoldsPath (ram.unlinked i) k dst.bytes ↔ HoldsPath ram k dst.bytes := by
    intro k
    rw [holds_unlinked]
    refine ⟨fun h => h.2, fun h => ⟨?_, h⟩⟩
    rintro rfl
    exact hne (hi.unique h src.nul_free dst.nul_free)
  unfold fileContent
  rw [findUsed_congr dst.nul_free hholds]
  cases hk : findUsed ram dst.bytes with
  | none => rfl
  | some k =>
    obtain ⟨-, hkholds, -⟩ := (findUsed_eq_some_iff dst.nul_free).1 hk
    have hki : k ≠ i := by
      rintro rfl
      exact hne (hi.unique hkholds src.nul_free dst.nul_free)
    rw [Option.map_some, Option.map_some, unlinked_of_ne hki]

/-- Without another slot of its path the source lives on in the destination only. -/
theorem survives_unlinked (hi : HoldsPath ram i src.bytes) (hne : src.bytes ≠ dst.bytes) :
    Survives (ram.unlinked i) src dst c ↔ (∃ k < maxFiles, k ≠ i ∧ HoldsPath ram k src.bytes) ∨
      fileContent ram dst.bytes = some c := by
  unfold Survives
  rw [findUsed_unlinked_none, fileContent_unlinked hi hne]
  by_cases hother : ∃ k < maxFiles, k ≠ i ∧ HoldsPath ram k src.bytes
  · exact iff_of_true (fun h => absurd hother h) (Or.inl hother)
  · exact ⟨fun h => Or.inr (h hother), fun h _ => h.resolve_left hother⟩

/-- A source that is there with its bytes is not gone. -/
theorem survives_of_content (h : fileContent ram src.bytes = some c) : Survives ram src dst c := by
  intro hgone
  rw [fileContent, hgone] at h
  cases h

/-- The slot that a copy takes is determined. -/
theorem Creates.eq {k : Nat} (h : Creates v j) (h' : Creates v k) : k = j :=
  Option.some.inj (h'.free.symm.trans h.free)

/-! ### The three cases of `KeepsData` -/

theorem keepsData_copy (hcreates : Creates v j) (hfd : v.nextFd + 1 < maxFd) :
    KeepsData v src dst i ↔ (∃ k < maxFiles, k ≠ i ∧ HoldsPath v.ram k src.bytes) ∨
      src.bytes = dst.bytes ∨ (∀ k < j, ¬ HoldsPath v.ram k dst.bytes) ∨
      fileContent v.ram dst.bytes = some (v.ram.files i).bytes := by
  constructor
  · rintro (⟨k, hk, -, h⟩ | ⟨k, -, hno, -⟩ | ⟨hno, -⟩)
    · rwa [hcreates.eq hk] at h
    · exact absurd hfd hno
    · exact absurd hfd (hno j hcreates).1
  · exact fun h => Or.inl ⟨j, hcreates, hfd, h⟩

theorem keepsData_empty (hcreates : Creates v j) (hfd : ¬ v.nextFd + 1 < maxFd)
    (heq : src.bytes = dst.bytes) :
    KeepsData v src dst i ↔ j < i ∨ NextHolds v.ram src.bytes i j (v.ram.files i).bytes ∨
      (v.ram.files i).bytes = [] ∧ ∀ k < j, k ≠ i → ¬ HoldsPath v.ram k src.bytes := by
  constructor
  · rintro (⟨k, -, hyes, -⟩ | ⟨k, hk, -, -, h⟩ | ⟨hno, -⟩)
    · exact absurd hyes hfd
    · rwa [hcreates.eq hk] at h
    · exact absurd heq (hno j hcreates).2
  · exact fun h => Or.inr (Or.inl ⟨j, hcreates, hfd, heq, h⟩)

theorem keepsData_none (h : ∀ j, Creates v j → ¬ v.nextFd + 1 < maxFd ∧ src.bytes ≠ dst.bytes) :
    KeepsData v src dst i ↔ NextHolds v.ram src.bytes i maxFiles (v.ram.files i).bytes := by
  constructor
  · rintro (⟨k, hk, hyes, -⟩ | ⟨k, hk, -, heq, -⟩ | ⟨-, hnext⟩)
    · exact absurd hyes (h k hk).1
    · exact absurd heq (h k hk).2
    · exact hnext
  · exact fun hnext => Or.inr (Or.inr ⟨h, hnext⟩)

/-! ### What a copy leaves -/

/-- The slots after a copy to slot `j`, which was free. -/
structure CopiedTo (v : Vfs) (ram₁ : RamFs) (dst : TmpPath) (j : Nat) : Prop where
  files : ∀ k, k ≠ j → ram₁.files k = v.ram.files k
  dst : HoldsPath ram₁ j dst.bytes
  free : findFree v.ram = some j

namespace CopiedTo

theorem not_holds (h : CopiedTo v ram₁ dst j) {p : Str} : ¬ HoldsPath v.ram j p := by
  intro hholds
  have hunused := (findFree_eq_some h.free).2
  rw [hholds.1] at hunused
  cases hunused

/-- The copy has the path of the destination. -/
theorem holds (h : CopiedTo v ram₁ dst j) {k : Nat} {p : Str} (hp : NulFree p) :
    HoldsPath ram₁ k p ↔ k = j ∧ p = dst.bytes ∨ HoldsPath v.ram k p := by
  by_cases hk : k = j
  · subst hk
    refine ⟨fun hholds => Or.inl ⟨rfl, hholds.unique h.dst hp dst.nul_free⟩, ?_⟩
    rintro (⟨-, rfl⟩ | hholds)
    · exact h.dst
    · exact absurd hholds h.not_holds
  · unfold HoldsPath
    rw [h.files k hk]
    simp [hk]

theorem holds_src (h : CopiedTo v ram₁ dst j) (hne : src.bytes ≠ dst.bytes) (k : Nat) :
    HoldsPath ram₁ k src.bytes ↔ HoldsPath v.ram k src.bytes := by
  rw [h.holds src.nul_free]
  exact ⟨fun h => h.resolve_left fun h => hne h.2, Or.inr⟩

/-- The destination opens to the copy, if that is the first slot of its path. -/
theorem content_copy (h : CopiedTo v ram₁ dst j) (hfirst : ∀ k < j, ¬ HoldsPath v.ram k dst.bytes) :
    fileContent ram₁ dst.bytes = some (ram₁.files j).bytes := by
  have hfound : findUsed ram₁ dst.bytes = some j := by
    refine (findUsed_eq_some_iff dst.nul_free).2 ⟨(findFree_eq_some h.free).1, h.dst, ?_⟩
    intro k hk hholds
    rcases (h.holds dst.nul_free).1 hholds with ⟨rfl, -⟩ | hholds
    · exact Nat.lt_irrefl _ hk
    · exact hfirst k hk hholds
  rw [fileContent, hfound, Option.map_some]

/-- Otherwise it opens to the older file. -/
theorem content_old (h : CopiedTo v ram₁ dst j) {k : Nat} (hkj : k < j)
    (hk : HoldsPath v.ram k dst.bytes) :
    fileContent ram₁ dst.bytes = fileContent v.ram dst.bytes := by
  have hjmax := (findFree_eq_some h.free).1
  obtain ⟨k₀, hk₀⟩ : ∃ k₀, findUsed v.ram dst.bytes = some k₀ := by
    refine Option.ne_none_iff_exists'.1 ?_
    intro hnone
    exact (findUsed_eq_none dst.nul_free).1 hnone k (by omega) hk.1 hk.2
  obtain ⟨hmax, hk₀holds, hk₀first⟩ := (findUsed_eq_some_iff dst.nul_free).1 hk₀
  have hk₀j : k₀ < j := by
    by_contra hle
    exact hk₀first k (by omega) hk
  have hfound : findUsed ram₁ dst.bytes = some k₀ := by
    refine (findUsed_eq_some_iff dst.nul_free).2
      ⟨hmax, (h.holds dst.nul_free).2 (Or.inr hk₀holds), ?_⟩
    intro n hn hholds
    rcases (h.holds dst.nul_free).1 hholds with ⟨rfl, -⟩ | hholds
    · omega
    · exact hk₀first n hn hholds
  unfold fileContent
  rw [hfound, hk₀, Option.map_some, Option.map_some, h.files k₀ (by omega)]

/-- The source is still the first slot of its path, when the copy has another. -/
theorem findUsed_src (h : CopiedTo v ram₁ dst j) (hne : src.bytes ≠ dst.bytes) :
    findUsed ram₁ src.bytes = findUsed v.ram src.bytes :=
  findUsed_congr src.nul_free (h.holds_src hne)

/-- **A copy to another path.** -/
theorem survives_iff (h : CopiedTo v ram₁ dst j) (hi : HoldsPath v.ram i src.bytes)
    (hne : src.bytes ≠ dst.bytes) (hbytes : (ram₁.files j).bytes = (v.ram.files i).bytes) :
    Survives (ram₁.unlinked i) src dst (v.ram.files i).bytes ↔
      (∃ k < maxFiles, k ≠ i ∧ HoldsPath v.ram k src.bytes) ∨
        (∀ k < j, ¬ HoldsPath v.ram k dst.bytes) ∨
        fileContent v.ram dst.bytes = some (v.ram.files i).bytes := by
  rw [survives_unlinked ((h.holds_src hne i).2 hi) hne]
  simp only [h.holds_src hne]
  refine or_congr_right ?_
  by_cases hfirst : ∀ k < j, ¬ HoldsPath v.ram k dst.bytes
  · refine iff_of_true ?_ (Or.inl hfirst)
    rw [h.content_copy hfirst, hbytes]
  · obtain ⟨k, hkj, hk⟩ : ∃ k < j, HoldsPath v.ram k dst.bytes := by
      by_contra hno
      exact hfirst fun k hk h => hno ⟨k, hk, h⟩
    rw [h.content_old hkj hk, or_iff_right hfirst]

/-- **A copy to the same path**: one of the two slots is left. -/
theorem survives_same (h : CopiedTo v ram₁ dst j) (hi : findUsed v.ram src.bytes = some i)
    (heq : src.bytes = dst.bytes) (m : Nat) : Survives (ram₁.unlinked m) src dst c := by
  obtain ⟨himax, hiholds, -⟩ := (findUsed_eq_some_iff src.nul_free).1 hi
  have hij : i ≠ j := by
    rintro rfl
    exact h.not_holds hiholds
  intro hgone
  refine absurd ?_ (findUsed_unlinked_none.1 hgone)
  by_cases him : i = m
  · refine ⟨j, (findFree_eq_some h.free).1, him ▸ Ne.symm hij, ?_⟩
    rw [heq]
    exact h.dst
  · exact ⟨i, himax, him, (h.holds src.nul_free).2 (Or.inr hiholds)⟩

/-- **An empty slot of another path.** -/
theorem content_iff (h : CopiedTo v ram₁ dst j) (hne : src.bytes ≠ dst.bytes) :
    fileContent (ram₁.unlinked i) src.bytes = some c ↔ NextHolds v.ram src.bytes i maxFiles c := by
  rw [fileContent_unlinked_self]
  refine nextHolds_congr (h.holds_src hne) ?_
  intro k hk
  refine h.files k ?_
  rintro rfl
  exact h.not_holds hk

/-- **An empty slot of the source's path** is removed, if it comes before the source. -/
theorem content_before (h : CopiedTo v ram₁ dst j) (hi : findUsed v.ram src.bytes = some i)
    (heq : src.bytes = dst.bytes) (hji : j < i) : findUsed ram₁ src.bytes = some j ∧
      fileContent (ram₁.unlinked j) src.bytes = some (v.ram.files i).bytes := by
  obtain ⟨himax, hiholds, hifirst⟩ := (findUsed_eq_some_iff src.nul_free).1 hi
  have hbefore : ∀ k < i, k ≠ j → ¬ HoldsPath ram₁ k src.bytes := by
    intro k hk hkj hholds
    exact hifirst k hk (((h.holds src.nul_free).1 hholds).resolve_left fun hk' => hkj hk'.1)
  constructor
  · refine (findUsed_eq_some_iff src.nul_free).2 ⟨by omega, heq ▸ h.dst, ?_⟩
    exact fun k hk => hbefore k (by omega) (by omega)
  · refine fileContent_unlinked_self.2
      ⟨i, himax, by omega, (h.holds src.nul_free).2 (Or.inr hiholds),
      fun m hm hmj => hbefore m hm hmj, ?_⟩
    rw [h.files i (by omega)]

/-- Otherwise the source is, and the next slot of the path may be the empty one. -/
theorem content_after (h : CopiedTo v ram₁ dst j) (hi : findUsed v.ram src.bytes = some i)
    (heq : src.bytes = dst.bytes) (hij : i < j) (hbytes : (ram₁.files j).bytes = []) :
    findUsed ram₁ src.bytes = some i ∧ (fileContent (ram₁.unlinked i) src.bytes = some c ↔
      NextHolds v.ram src.bytes i j c ∨ c = [] ∧ ∀ k < j, k ≠ i →
        ¬ HoldsPath v.ram k src.bytes) := by
  obtain ⟨himax, hiholds, hifirst⟩ := (findUsed_eq_some_iff src.nul_free).1 hi
  have hjmax := (findFree_eq_some h.free).1
  have hjholds : HoldsPath ram₁ j src.bytes := heq ▸ h.dst
  have hsame : ∀ k, k ≠ j → (HoldsPath ram₁ k src.bytes ↔ HoldsPath v.ram k src.bytes) := by
    intro k hk
    rw [h.holds src.nul_free]
    exact or_iff_right fun hk' => hk hk'.1
  constructor
  · refine (findUsed_eq_some_iff src.nul_free).2 ⟨himax, (hsame i (by omega)).2 hiholds, ?_⟩
    exact fun k hk hholds => hifirst k hk ((hsame k (by omega)).1 hholds)
  · rw [fileContent_unlinked_self]
    constructor
    · rintro ⟨k, hk, hki, hholds, hfirst, hc⟩
      rcases Nat.lt_trichotomy k j with hkj | rfl | hjk
      · refine Or.inl ⟨k, hkj, hki, (hsame k (by omega)).1 hholds, ?_, ?_⟩
        · exact fun m hm hmi hm' => hfirst m hm hmi ((hsame m (by omega)).2 hm')
        · rwa [h.files k (by omega)] at hc
      · refine Or.inr ⟨hc.symm.trans hbytes, ?_⟩
        exact fun m hm hmi hm' => hfirst m hm hmi ((hsame m (by omega)).2 hm')
      · exact absurd hjholds (hfirst j hjk (by omega))
    · rintro (⟨k, hkj, hki, hholds, hfirst, hc⟩ | ⟨rfl, hfirst⟩)
      · refine ⟨k, by omega, hki, (hsame k (by omega)).2 hholds, ?_, ?_⟩
        · exact fun m hm hmi hm' => hfirst m hm hmi ((hsame m (by omega)).1 hm')
        · rwa [h.files k (by omega)]
      · refine ⟨j, hjmax, by omega, hjholds, ?_, hbytes⟩
        exact fun m hm hmi hm' => hfirst m hm hmi ((hsame m (by omega)).1 hm')

end CopiedTo

/-- **What `cmd_mv` does**: it ends, and it does no harm if `KeepsData` held before. -/
theorem cmdMv_spec (dst : TmpPath) (hmounts : v.mounts = bootMounts) (hns : v.ns = [])
    (hi : findUsed v.ram src.bytes = some i) (hsize : (v.ram.files i).size ≤ maxContent) :
    ∃ v' failed n, (∀ fuel, n ≤ fuel →
        cmdMv fuel v (src.bytes ++ [blank] ++ dst.bytes) = some v' ∧
        cmdCpFails fuel v (src.bytes ++ [blank] ++ dst.bytes) = some failed) ∧
      (Survives v'.ram src dst (v.ram.files i).bytes ∧
        (failed = true → fileContent v'.ram src.bytes = some (v.ram.files i).bytes) ↔
          KeepsData v src dst i) := by
  obtain ⟨v₁, failed, n, hrun, hm, hcopy⟩ := cmdCp_spec dst hns hi hsize
  obtain ⟨himax, hiholds, -⟩ := (findUsed_eq_some_iff src.nul_free).1 hi
  have hmounts₁ : v₁.mounts = bootMounts := hm.trans hmounts
  refine ⟨(vfsUnlink v₁ src.bytes).2, failed, n, ?_, ?_⟩
  · intro fuel hfuel
    refine ⟨?_, (hrun fuel hfuel).2⟩
    unfold cmdMv
    rw [twoArgs_eq]
    dsimp only
    rw [(hrun fuel hfuel).1, Option.map_some]
  -- after a failure the source must be there, and then it is not gone
  have hfails : ∀ ram, (Survives ram src dst (v.ram.files i).bytes ∧
      (true = true → fileContent ram src.bytes = some (v.ram.files i).bytes)) ↔
        fileContent ram src.bytes = some (v.ram.files i).bytes :=
    fun ram => ⟨fun h => h.2 rfl, fun h => ⟨survives_of_content h, fun _ => h⟩⟩
  rcases hcopy with ⟨j, hcreates, hfiles, hj, hbytes, hfailed⟩ | ⟨hnone, hfiles, hfailed⟩
  · have hcopied : CopiedTo v v₁.ram dst j := ⟨hfiles, hj, hcreates.free⟩
    by_cases hfd : v.nextFd + 1 < maxFd
    · -- the copy is made
      rw [if_pos hfd] at hbytes
      rw [decide_eq_false (by omega)] at hfailed
      rw [keepsData_copy hcreates hfd, hfailed, and_iff_left fun h => by cases h]
      by_cases heq : src.bytes = dst.bytes
      · obtain ⟨m, hfound⟩ : ∃ m, findUsed v₁.ram src.bytes = some m := by
          refine Option.ne_none_iff_exists'.1 ?_
          intro hnone
          have hi₁ := (hcopied.holds (k := i) src.nul_free).2 (Or.inr hiholds)
          exact (findUsed_eq_none src.nul_free).1 hnone i himax hi₁.1 hi₁.2
        rw [vfsUnlink_tmp hmounts₁ hfound]
        exact iff_of_true (hcopied.survives_same hi heq m) (Or.inr (Or.inl heq))
      · rw [vfsUnlink_tmp hmounts₁ ((hcopied.findUsed_src heq).trans hi),
          hcopied.survives_iff hiholds heq hbytes, or_iff_right heq]
    · -- the copy is an empty slot
      rw [if_neg hfd] at hbytes
      rw [decide_eq_true (by omega)] at hfailed
      rw [hfailed, hfails]
      by_cases heq : src.bytes = dst.bytes
      · rw [keepsData_empty hcreates hfd heq]
        rcases Nat.lt_trichotomy i j with hij | rfl | hji
        · obtain ⟨hfound, hcontent⟩ := hcopied.content_after hi heq hij hbytes
            (c := (v.ram.files i).bytes)
          rw [vfsUnlink_tmp hmounts₁ hfound, hcontent, or_iff_right (Nat.lt_asymm hij)]
        · exact absurd hiholds hcopied.not_holds
        · obtain ⟨hfound, hcontent⟩ := hcopied.content_before hi heq hji
          rw [vfsUnlink_tmp hmounts₁ hfound]
          exact iff_of_true hcontent (Or.inl hji)
      · have hnext : ∀ k, Creates v k → ¬ v.nextFd + 1 < maxFd ∧ src.bytes ≠ dst.bytes :=
          fun _ _ => ⟨hfd, heq⟩
        rw [vfsUnlink_tmp hmounts₁ ((hcopied.findUsed_src heq).trans hi), hcopied.content_iff heq,
          keepsData_none hnext]
  · -- there is no copy
    have hholds : ∀ k, HoldsPath v₁.ram k src.bytes ↔ HoldsPath v.ram k src.bytes :=
      fun k => holdsPath_congr (hfiles k)
    have hfound : findUsed v₁.ram src.bytes = some i :=
      (findUsed_congr src.nul_free hholds).trans hi
    rw [hfailed, hfails, vfsUnlink_tmp hmounts₁ hfound, fileContent_unlinked_self,
      keepsData_none fun k hk => absurd hk (hnone k)]
    refine nextHolds_congr hholds ?_
    intro k hk
    refine (hfiles k).resolve_right ?_
    rintro ⟨hunused, -⟩
    rw [hk.1] at hunused
    cases hunused

/-- A move that does no harm is the one that `cmdMv_spec` speaks of. -/
theorem MovesSafely.keepsData (h : MovesSafely v src dst (v.ram.files i).bytes)
    (hmounts : v.mounts = bootMounts) (hns : v.ns = []) (hi : findUsed v.ram src.bytes = some i)
    (hsize : (v.ram.files i).size ≤ maxContent) : KeepsData v src dst i := by
  obtain ⟨v', failed, n, hrun, hiff⟩ := cmdMv_spec dst hmounts hns hi hsize
  obtain ⟨w, failed', n', hrun', hsafe⟩ := h
  have hstate : v' = w :=
    eq_of_runs (fun fuel hf => (hrun fuel hf).1) (fun fuel hf => (hrun' fuel hf).1)
  have hfailed : failed = failed' :=
    eq_of_runs (fun fuel hf => (hrun fuel hf).2) (fun fuel hf => (hrun' fuel hf).2)
  rw [← hstate, ← hfailed] at hsafe
  exact hiff.1 hsafe

/-- **`mv` does no harm exactly where `KeepsData` holds before it.** -/
theorem movesSafely_iff (hmounts : v.mounts = bootMounts) (hns : v.ns = [])
    (hi : findUsed v.ram src.bytes = some i) (hsize : (v.ram.files i).size ≤ maxContent) :
    MovesSafely v src dst (v.ram.files i).bytes ↔ KeepsData v src dst i := by
  refine ⟨fun h => h.keepsData hmounts hns hi hsize, fun h => ?_⟩
  obtain ⟨v', failed, n, hrun, hiff⟩ := cmdMv_spec dst hmounts hns hi hsize
  exact ⟨v', failed, n, hrun, hiff.2 h⟩

end Move

/-! ## A file with one byte -/

/-- The path `/tmp/a`. -/
def argA : TmpPath where
  bytes := tmpA
  tmp := tmpA_prefix
  length_lt := by decide
  nul_free := by unfold NulFree; decide
  no_blank := by decide

/-- The path `/tmp/b`. -/
def argB : TmpPath where
  bytes := tmpSlash ++ str ['b']
  tmp := List.prefix_append _ _
  length_lt := by decide
  nul_free := by unfold NulFree; decide
  no_blank := by decide

/-- The file `/tmp/a` and nothing else in RAMFS, after `n` descriptors. -/
def withTmpA (n : Nat) : Vfs :=
  { vfsInit (fun _ => 0) [slash] with
    ram := (ramfsCreateFile ramfsInit tmpA (str ['x'])).2
    nextFd := n }

theorem findUsed_withTmpA (n : Nat) : findUsed (withTmpA n).ram argA.bytes = some 0 := by
  have h : findUsed (ramfsCreateFile ramfsInit tmpA (str ['x'])).2 tmpA = some 0 := by decide
  exact h

theorem bytes_withTmpA (n : Nat) : ((withTmpA n).ram.files 0).bytes = str ['x'] := by
  have h : ((ramfsCreateFile ramfsInit tmpA (str ['x'])).2.files 0).bytes = str ['x'] := by decide
  exact h

/-- With the descriptor table full, `mv /tmp/a /tmp/b` copies nothing and removes the file; with one
descriptor left, `mv /tmp/a /tmp/a` leaves an empty file in its place. -/
theorem mv_loses_file : ¬ MovesSafely (withTmpA maxFd) argA argB (str ['x']) ∧
    ¬ MovesSafely (withTmpA (maxFd - 1)) argA argA (str ['x']) := by
  have hother : ∀ n k, k ≠ 0 → ((withTmpA n).ram.files k).used = false := by
    intro n k hk
    have h : (ramfsCreateFile ramfsInit tmpA (str ['x'])).2.files k = ramfsInit.files k := if_neg hk
    exact congrArg RamfsFile.used h
  have hnext : ∀ n p m c, ¬ NextHolds (withTmpA n).ram p 0 m c := by
    rintro n p m c ⟨k, -, hk, hholds, -⟩
    have hused := hholds.1
    rw [hother n k hk] at hused
    cases hused
  constructor
  · intro hsafe
    rw [← bytes_withTmpA maxFd] at hsafe
    rcases hsafe.keepsData rfl rfl (findUsed_withTmpA maxFd) (by decide) with
      ⟨j, hj, -⟩ | ⟨j, hj, -⟩ | ⟨-, h⟩
    · exact absurd hj.fd (Nat.lt_irrefl maxFd)
    · exact absurd hj.fd (Nat.lt_irrefl maxFd)
    · exact hnext _ _ _ _ h
  · intro hsafe
    rw [← bytes_withTmpA (maxFd - 1)] at hsafe
    have hfd : ¬ (withTmpA (maxFd - 1)).nextFd + 1 < maxFd := by decide
    rcases hsafe.keepsData rfl rfl (findUsed_withTmpA (maxFd - 1)) (by decide) with
      ⟨j, -, hyes, -⟩ | ⟨j, hj, -, -, hbefore | h | ⟨hc, -⟩⟩ | ⟨-, h⟩
    · exact absurd hyes hfd
    · exact absurd hbefore (Nat.not_lt_zero j)
    · exact hnext _ _ _ _ h
    · rw [bytes_withTmpA] at hc
      cases hc
    · exact hnext _ _ _ _ h

/-- With two descriptors left, `mv /tmp/a /tmp/b` is safe. -/
theorem movesSafely_withTmpA :
    MovesSafely (withTmpA 30) argA argB ((withTmpA 30).ram.files 0).bytes := by
  have hiff : MovesSafely (withTmpA 30) argA argB ((withTmpA 30).ram.files 0).bytes ↔
      KeepsData (withTmpA 30) argA argB 0 :=
    movesSafely_iff rfl rfl (findUsed_withTmpA 30) (by decide)
  have hfree : findFree (withTmpA 30).ram = some 1 := by
    have h : findFree (ramfsCreateFile ramfsInit tmpA (str ['x'])).2 = some 1 := by decide
    exact h
  refine hiff.2 (Or.inl ⟨1, ⟨by decide, by decide, hfree⟩, by decide, Or.inr (Or.inr (Or.inl ?_))⟩)
  intro k hk hholds
  have hk0 : k = 0 := by omega
  subst hk0
  have hfound := (findUsed_eq_some_iff argA.nul_free).1 (findUsed_withTmpA 30)
  have heq := hholds.unique hfound.2.1 argB.nul_free argA.nul_free
  exact absurd heq (by decide)

end OsArm
