import OsArm.Lib.Transition
import OsArm.Vfs.Basic
import OsArm.Shell

/-!
# Path buffers (`vfs.c`, `shell.c`)

The entry points of the VFS and `cmd_cd` put paths together in buffers of 256 bytes, with `strcpy`
and `strcat`; the directory of the process is another one.

* `PathBuf` — a buffer, with the offsets that were stored to.
* `fullPathBuf`, `resolveBuf`, `cmdCd` — the functions that fill them.
* `dirPath`, `follow` — directories as lists of names, and where a path leads; `enterAll_inside` is
  what the loop of `cmd_cd` needs.
* `ShellCall.Fits` — the lengths for which a command stays inside the buffers.
* `pathStores_iff` — all commands of a run do so if and only if their lengths are such;
  `cd_overruns` is a run of two commands that are not.
-/

namespace OsArm

/-! ## Buffers -/

/-- A buffer for a path: the string in it, and the offsets that were stored to, in order. -/
structure PathBuf where
  text : Str
  stores : List Nat

namespace PathBuf

/-- `strcpy` into a buffer that nothing was stored to. -/
def copy (s : Str) : PathBuf := { text := s, stores := List.range (s.length + 1) }

/-- `strcat`. -/
def strcat (b : PathBuf) (s : Str) : PathBuf :=
  { text := b.text ++ s, stores := b.stores ++ List.range' b.text.length (s.length + 1) }

/-- `path[i] = '\0'`. -/
def cut (b : PathBuf) (i : Nat) : PathBuf := { text := b.text.take i, stores := b.stores ++ [i] }

/-- `path[0] = '/'; path[1] = '\0'`. -/
def root (b : PathBuf) : PathBuf := { text := [slash], stores := b.stores ++ [0, 1] }

/-- **Every byte is stored inside** a buffer of 256 bytes. -/
def Inside (b : PathBuf) : Prop := ∀ x ∈ b.stores, x < vfsMaxPath

variable {b : PathBuf} {s : Str} {i : Nat}

/-- Two bytes are stored for the root directory. -/
theorem inside_root : (root { text := s, stores := [] }).Inside := by
  intro x hx
  have hmem : x ∈ [0, 1] := hx
  have hlt : x < 2 := by
    simp only [List.mem_cons, List.not_mem_nil, or_false] at hmem
    omega
  exact Nat.lt_of_lt_of_le hlt (by decide)

theorem inside_copy : (copy s).Inside ↔ s.length < vfsMaxPath := by
  simp only [Inside, copy, List.mem_range]
  exact ⟨fun h => h _ (Nat.lt_succ_self _), fun h x hx => by omega⟩

theorem inside_strcat : (b.strcat s).Inside ↔
    b.Inside ∧ b.text.length + s.length < vfsMaxPath := by
  simp only [Inside, strcat, List.mem_append, List.mem_range'_1]
  constructor
  · intro h
    exact ⟨fun x hx => h x (Or.inl hx), h _ (Or.inr ⟨by omega, by omega⟩)⟩
  · rintro ⟨hb, hlen⟩ x (hx | hx)
    · exact hb x hx
    · omega

end PathBuf

/-! ## The functions -/

/-- `full_path` of the entry points that join a relative path with `cwd`. -/
def fullPathBuf (cwd path : Str) : PathBuf :=
  if path.head? ≠ some slash then
    let b := PathBuf.copy cwd
    let b := if b.text.getLast? ≠ some slash then b.strcat [slash] else b
    b.strcat path
  else PathBuf.copy path

/-- The buffer that `resolve_path` fills. -/
def resolveBuf (path : Str) : List Binding → PathBuf
  | [] => PathBuf.copy path
  | b :: ns =>
    if strncmp path b.oldPath b.oldPath.length = 0 then
      (PathBuf.copy b.newPath).strcat (path.drop b.oldPath.length)
    else resolveBuf path ns

/-- The loop of `get_parent_dir` that looks for a slash in front of `len`. -/
def slashEnd (path : Str) : Nat → Nat
  | 0 => 0
  | len + 1 => if path[len]? ≠ some slash then slashEnd path len else len + 1

/-- `get_parent_dir`. -/
def getParentDir (b : PathBuf) : PathBuf :=
  if b.text = [slash] then b
  else
    let len := b.text.length
    let trailing := len > 1 ∧ b.text[len - 1]? = some slash
    let b := if trailing then b.cut (len - 1) else b
    let len := if trailing then len - 1 else len
    let len := slashEnd b.text len
    let b := if len > 0 then (if len = 1 then b.cut 1 else b.cut (len - 1)) else b
    if b.text = [] then b.root else b

/-- What `cmd_cd` does with a component. -/
def enter (temp : PathBuf) (component : Str) : PathBuf :=
  if component = str ['.'] then temp
  else if component = str ['.', '.'] then getParentDir temp
  else
    let temp := if temp.text ≠ [slash] then temp.strcat [slash] else temp
    temp.strcat component

/-- The offset at which `strtok_r` cuts off a token, the string still to be searched being `s`,
from `pos` on. -/
def strtokStores (pos : Nat) (s : Str) : List Nat :=
  let skipped := (s.takeWhile (· = slash)).length
  let token := ((s.drop skipped).takeWhile (· ≠ slash)).length
  if token ≠ 0 ∧ skipped + token < s.length then [pos + skipped + token] else []

/-- The loop of `cmd_cd` over the components: `temp_path`, and the offsets stored to in
`path_copy`, a string of `total` bytes. -/
def cdLoop (total : Nat) : Nat → PathBuf → List Nat → Str → PathBuf × List Nat
  | 0, temp, copied, _ => (temp, copied)
  | fuel + 1, temp, copied, save =>
    let copied := copied ++ strtokStores (total - save.length) save
    match strtokR save [slash] with
    | none => (temp, copied)
    | some (component, save) => cdLoop total fuel (enter temp component) copied save

/-- `cmd_cd`: the state after it, and the offsets stored to in `temp_path`, `path_copy`,
`resolved_path` and `cwd`. -/
def cmdCd (v : Vfs) (path : Str) : Vfs × List Nat :=
  if path = [] then ({ v with cwd := [slash] }, [0, 1])
  else if path = str ['.'] then (v, [])
  else if path = str ['.', '.'] then
    let cwd := getParentDir { text := v.cwd, stores := [] }
    ({ v with cwd := cwd.text }, cwd.stores)
  else
    let absolute := path.head? = some slash
    let temp := if absolute then ({ text := [], stores := [] } : PathBuf).root
      else PathBuf.copy v.cwd
    let path := if absolute then path.drop 1 else path
    let (temp, copied) := cdLoop path.length (path.length + 1) temp
      (List.range (path.length + 1)) path
    let (fd, w) := vfsOpen v temp.text
    let stores := temp.stores ++ copied ++ (resolveBuf temp.text v.ns).stores
    if fd < 0 then (w, stores)
    else ({ w with cwd := temp.text }, stores ++ (PathBuf.copy temp.text).stores)

/-- `cmd_touch`. -/
def cmdTouch (v : Vfs) (args : Str) : Vfs :=
  if args = [] then v
  else
    let (fd, v) := vfsCreate v args
    if fd < 0 then v else (vfsClose v fd).2

/-- `cmd_mkdir`. -/
def cmdMkdir (v : Vfs) (args : Str) : Vfs := if args = [] then v else (vfsMkdir v args).2

/-- What `cmd_rm` is to remove, and whether with `-r`. -/
def rmTarget (args : Str) : Option (Bool × Str) :=
  match strtokR args [blank] with
  | none => none
  | some (token, save) =>
    if token = str ['-', 'r'] then (strtokR save [blank]).map fun target => (true, target.1)
    else some (false, token)

/-- `cmd_rm`; `none` when the recursion goes deeper than `fuel`. -/
def cmdRm (fuel : Nat) (v : Vfs) (args : Str) : Option Vfs :=
  match rmTarget args with
  | none => some v
  | some (true, target) => (vfsRemoveRecursive fuel v target).map Prod.snd
  | some (false, target) => some (vfsUnlink v target).2

/-- The buffer `full_path` holds the path that the entry points go on with. -/
theorem fullPathBuf_text (cwd path : Str) : (fullPathBuf cwd path).text = joinCwd cwd path := by
  unfold fullPathBuf joinCwd
  split
  · dsimp only [PathBuf.copy]
    split <;> rfl
  · rfl

/-- What `resolve_path` leaves in its buffer. -/
theorem resolveBuf_text (path : Str) (ns : List Binding) :
    (resolveBuf path ns).text = resolvePath path ns := by
  induction ns with
  | nil => rfl
  | cons b ns ih =>
    rw [resolveBuf, resolvePath]
    split
    · rfl
    · exact ih

/-! ## Directories -/

/-- The path of a directory, by the names that lead to it. -/
def dirPath (cs : List Str) : Str := if cs = [] then [slash] else cs.flatMap fun c => slash :: c

/-- The directory behind one more component. -/
def followOne (cs : List Str) (c : Str) : List Str :=
  if c = str ['.'] then cs else if c = str ['.', '.'] then cs.dropLast else cs ++ [c]

/-- The directory behind the components. -/
def follow (cs comps : List Str) : List Str := comps.foldl followOne cs

section Directories

variable {cs ds comps : List Str} {c : Str} {b : PathBuf}

theorem dirPath_concat (ds : List Str) (c : Str) :
    dirPath (ds ++ [c]) = (ds.flatMap fun d => slash :: d) ++ slash :: c := by
  rw [dirPath, if_neg (by simp), List.flatMap_append]
  simp

/-- One name more, as `cmd_cd` puts it behind a directory. -/
theorem dirPath_push (cs : List Str) (c : Str) :
    dirPath (cs ++ [c]) = (if cs = [] then dirPath cs else dirPath cs ++ [slash]) ++ c := by
  rw [dirPath_concat]
  split
  · next hnil =>
    rw [hnil]
    rfl
  · next hne =>
    rw [dirPath, if_neg hne, List.append_assoc]
    rfl

theorem dirPath_dropLast_length (cs : List Str) :
    (dirPath cs.dropLast).length ≤ (dirPath cs).length := by
  induction cs using List.reverseRecOn with
  | nil => exact Nat.le_refl _
  | append_singleton ds c _ =>
    rw [List.dropLast_concat, dirPath_push, List.length_append]
    split
    · exact Nat.le_add_right _ _
    · rw [List.length_append]
      omega

theorem AreNames.dropLast (h : AreNames cs) : AreNames cs.dropLast :=
  fun c hc => h c (List.dropLast_subset cs hc)

theorem AreNames.followOne (h : AreNames cs) (hc : c ≠ [] ∧ slash ∉ c) :
    AreNames (followOne cs c) := by
  unfold OsArm.followOne
  split
  · exact h
  · split
    · exact h.dropLast
    · intro d hd
      rcases List.mem_append.1 hd with hd | hd
      · exact h d hd
      · rw [List.mem_singleton.1 hd]
        exact hc

/-- **The components of a directory** are the names that lead to it. -/
theorem tokens_dirPath (h : AreNames cs) : tokens (dirPath cs) = cs := by
  induction cs using List.reverseRecOn with
  | nil => rfl
  | append_singleton ds c ih =>
    have hc := h c (by simp)
    have hds : AreNames ds := fun d hd => h d (List.mem_append_left _ hd)
    rw [dirPath_concat, tokens_append, tokens_name hc.1 hc.2]
    cases ds with
    | nil => rfl
    | cons d ds =>
      have hih := ih hds
      rw [dirPath, if_neg (List.cons_ne_nil d ds)] at hih
      rw [hih]

/-- The only directory whose path is a slash. -/
theorem dirPath_eq_root (h : AreNames cs) : dirPath cs = [slash] ↔ cs = [] := by
  constructor
  · intro heq
    rw [← tokens_dirPath h, heq]
    rfl
  · rintro rfl
    rfl

/-! ## The parent directory -/

/-- The last slash is in front of the last name. -/
theorem slashEnd_eq {pre c : Str} (hc : slash ∉ c) {k : Nat} (hk : k ≤ c.length) :
    slashEnd (pre ++ slash :: c) (pre.length + 1 + k) = pre.length + 1 := by
  induction k with
  | zero =>
    rw [Nat.add_zero, slashEnd, if_neg]
    simp
  | succ k ih =>
    rw [← Nat.add_assoc, slashEnd, if_pos, ih (by omega)]
    rw [List.getElem?_append_right (by omega), Nat.add_right_comm, Nat.add_assoc,
      Nat.add_sub_cancel_left, List.getElem?_cons_succ, List.getElem?_eq_getElem (by omega)]
    intro heq
    exact hc (Option.some.inj heq ▸ List.getElem_mem _)

/-- **`get_parent_dir`** drops the last name, and stores inside the path. -/
theorem getParentDir_spec (hb : b.text = dirPath cs) (h : AreNames cs) :
    (getParentDir b).text = dirPath cs.dropLast ∧
      ∃ l, (getParentDir b).stores = b.stores ++ l ∧ ∀ x ∈ l, x < b.text.length := by
  induction cs using List.reverseRecOn with
  | nil =>
    have hroot : b.text = [slash] := hb
    rw [getParentDir, if_pos hroot]
    exact ⟨hroot, [], by simp, by simp⟩
  | append_singleton ds c _ =>
    obtain ⟨hne, hc⟩ := h c (by simp)
    rw [dirPath_concat] at hb
    generalize hpre : (ds.flatMap fun d => slash :: d) = pre at hb
    have hlen : b.text.length = pre.length + 1 + c.length := by
      rw [hb, List.length_append, List.length_cons]
      omega
    have hclen := List.length_pos_iff.2 hne
    have hnroot : b.text ≠ [slash] := by
      intro heq
      have hone := congrArg List.length heq
      rw [hlen] at hone
      simp only [List.length_singleton] at hone
      omega
    have htrailing : ¬ (b.text.length > 1 ∧ b.text[b.text.length - 1]? = some slash) := by
      rintro ⟨-, hlast⟩
      rw [hlen, hb, List.getElem?_append_right (by omega)] at hlast
      obtain ⟨k, hk⟩ : ∃ k, pre.length + 1 + c.length - 1 - pre.length = k + 1 :=
        ⟨c.length - 1, by omega⟩
      rw [hk, List.getElem?_cons_succ] at hlast
      exact hc (List.mem_of_getElem? hlast)
    have hslash : slashEnd b.text b.text.length = pre.length + 1 := by
      rw [hlen, hb]
      exact slashEnd_eq hc (Nat.le_refl _)
    unfold getParentDir
    rw [if_neg hnroot]
    simp only [if_neg htrailing, hslash, Nat.add_sub_cancel]
    rw [if_pos (Nat.succ_pos _), List.dropLast_concat]
    cases ds with
    | nil =>
      have hnil : pre = [] := by
        rw [← hpre]
        rfl
      subst hnil
      have htext : (b.cut 1).text = [slash] := by
        rw [PathBuf.cut, hb]
        rfl
      rw [if_pos (show ([] : Str).length + 1 = 1 from rfl), htext,
        if_neg (List.cons_ne_nil slash [])]
      refine ⟨htext, [1], rfl, ?_⟩
      intro x hx
      rw [List.mem_singleton.1 hx, hlen]
      omega
    | cons d ds =>
      have hpos : pre.length ≠ 0 := by
        rw [← hpre]
        simp
      have htext : (b.cut pre.length).text = pre := by
        rw [PathBuf.cut, hb, List.take_left]
      have hne' : pre ≠ [] := fun hnil => hpos (by rw [hnil]; rfl)
      have hone : ¬ pre.length + 1 = 1 := by omega
      rw [if_neg hone, htext, if_neg hne']
      refine ⟨?_, [pre.length], rfl, ?_⟩
      · rw [htext, ← hpre, dirPath, if_neg (List.cons_ne_nil d ds)]
      · intro x hx
        rw [List.mem_singleton.1 hx, hlen]
        omega

/-! ## The loop of `cmd_cd` -/

/-- **One component**: the directory it leads to, and what the buffer needs. -/
theorem enter_spec (hb : b.text = dirPath cs) (h : AreNames cs) (c : Str) :
    (enter b c).text = dirPath (followOne cs c) ∧ b.stores ⊆ (enter b c).stores ∧
      ((dirPath cs).length < vfsMaxPath →
        ((enter b c).Inside ↔ b.Inside ∧ (dirPath (followOne cs c)).length < vfsMaxPath)) := by
  unfold enter followOne
  split
  · exact ⟨hb, fun _ hx => hx, fun hlen => (and_iff_left hlen).symm⟩
  · split
    · obtain ⟨htext, l, hl, hlt⟩ := getParentDir_spec hb h
      refine ⟨htext, fun x hx => hl ▸ List.mem_append_left l hx, ?_⟩
      intro hlen
      have hparent := dirPath_dropLast_length cs
      rw [hb] at hlt
      unfold PathBuf.Inside
      rw [hl, and_iff_left (Nat.lt_of_le_of_lt hparent hlen)]
      refine ⟨fun hin x hx => hin x (List.mem_append_left l hx), ?_⟩
      intro hin x hx
      rcases List.mem_append.1 hx with hx | hx
      · exact hin x hx
      · exact Nat.lt_trans (hlt x hx) hlen
    · dsimp only
      rw [dirPath_push, hb]
      by_cases hroot : cs = []
      · have htext : dirPath cs = [slash] := (dirPath_eq_root h).2 hroot
        rw [if_neg (not_not.2 htext), if_pos hroot]
        refine ⟨by rw [PathBuf.strcat, hb], fun x hx => List.mem_append_left _ hx, ?_⟩
        intro _
        rw [PathBuf.inside_strcat, hb, List.length_append]
      · have htext : dirPath cs ≠ [slash] := mt (dirPath_eq_root h).1 hroot
        rw [if_pos htext, if_neg hroot]
        refine ⟨by rw [PathBuf.strcat, PathBuf.strcat, hb],
          fun x hx => List.mem_append_left _ (List.mem_append_left _ hx), ?_⟩
        intro _
        have hmid : (b.strcat [slash]).text = dirPath cs ++ [slash] := by rw [PathBuf.strcat, hb]
        rw [PathBuf.inside_strcat, PathBuf.inside_strcat, hmid, hb]
        simp only [List.length_append, List.length_singleton]
        exact ⟨fun hin => ⟨hin.1.1, hin.2⟩, fun hin => ⟨⟨hin.1, by omega⟩, hin.2⟩⟩

/-- **All components**, from the left. -/
theorem enterAll_spec (hb : b.text = dirPath cs) (h : AreNames cs) (hcomps : AreNames comps) :
    (comps.foldl enter b).text = dirPath (follow cs comps) ∧
      b.stores ⊆ (comps.foldl enter b).stores ∧ AreNames (follow cs comps) ∧
      ((dirPath cs).length < vfsMaxPath → ((comps.foldl enter b).Inside ↔
        b.Inside ∧ ∀ k, (dirPath (follow cs (comps.take k))).length < vfsMaxPath)) := by
  induction comps generalizing b cs with
  | nil =>
    refine ⟨hb, fun _ hx => hx, h, fun hlen => (and_iff_left fun k => ?_).symm⟩
    rw [List.take_nil]
    exact hlen
  | cons c comps ih =>
    obtain ⟨htext, hsub, hinside⟩ := enter_spec hb h c
    have hnext : AreNames (followOne cs c) := h.followOne (hcomps c List.mem_cons_self)
    obtain ⟨htexts, hsubs, hnames, hinsides⟩ :=
      ih htext hnext fun d hd => hcomps d (List.mem_cons_of_mem c hd)
    refine ⟨htexts, fun x hx => hsubs (hsub hx), hnames, ?_⟩
    intro hlen
    -- the components before the first, and behind it
    have hsplit : (∀ k, (dirPath (follow cs ((c :: comps).take k))).length < vfsMaxPath) ↔
        ∀ k, (dirPath (follow (followOne cs c) (comps.take k))).length < vfsMaxPath := by
      refine ⟨fun hk k => hk (k + 1), ?_⟩
      intro hk k
      cases k with
      | zero => exact hlen
      | succ k => exact hk k
    rw [hsplit]
    by_cases hfits : (dirPath (followOne cs c)).length < vfsMaxPath
    · rw [List.foldl_cons, hinsides hfits, hinside hlen, and_iff_left hfits]
    · refine iff_of_false (fun hin => ?_) fun hin => hfits (hin.2 0)
      have hone : (enter b c).Inside := fun x hx => hin x (hsubs hx)
      exact hfits ((hinside hlen).1 hone).2

/-- **The loop** goes through the components, and stores NUL bytes inside `path_copy`. -/
theorem cdLoop_eq {total fuel : Nat} {copied : List Nat} {save : Str} (hfuel : save.length < fuel)
    (htotal : save.length ≤ total) (hcopied : ∀ x ∈ copied, x ≤ total) :
    (cdLoop total fuel b copied save).1 = (tokens save).foldl enter b ∧
      ∀ x ∈ (cdLoop total fuel b copied save).2, x ≤ total := by
  induction fuel generalizing b copied save with
  | zero => omega
  | succ fuel ih =>
    have hstores : ∀ x ∈ copied ++ strtokStores (total - save.length) save, x ≤ total := by
      intro x hx
      rcases List.mem_append.1 hx with hx | hx
      · exact hcopied x hx
      · unfold strtokStores at hx
        dsimp only at hx
        split at hx
        · next hcond =>
          rw [List.mem_singleton.1 hx]
          omega
        · cases hx
    rw [cdLoop]
    cases hstrtok : strtokR save [slash] with
    | none =>
      rw [tokens_of_strtokR_none hstrtok]
      exact ⟨rfl, hstores⟩
    | some r =>
      obtain ⟨component, rest⟩ := r
      obtain ⟨htokens, hlt, -⟩ := tokens_of_strtokR_some hstrtok
      rw [htokens]
      exact ih (by omega) (by omega) hstores

end Directories

/-! ## The commands -/

/-- A command of the shell, with its argument; without one, the argument is empty. -/
inductive ShellCall
  | cd (args : Str)
  | mkdir (args : Str)
  | touch (args : Str)
  | rm (args : Str)

namespace ShellCall

/-- The argument. -/
def args : ShellCall → Str
  | cd args | mkdir args | touch args | rm args => args

/-- What the input line of 256 bytes has room for. -/
def Allowed (a : ShellCall) : Prop := a.args.length ≤ 252

/-- The state after the command. -/
def Next (v w : Vfs) : ShellCall → Prop
  | cd args => w = (cmdCd v args).1
  | mkdir args => w = cmdMkdir v args
  | touch args => w = cmdTouch v args
  | rm args => ∃ fuel, cmdRm fuel v args = some w

/-- The offsets the command stores to in path buffers. -/
def stores (v : Vfs) : ShellCall → List Nat
  | cd args => (cmdCd v args).2
  | mkdir args | touch args => if args = [] then [] else (fullPathBuf v.cwd args).stores
  | rm args =>
    match rmTarget args with
    | none => []
    | some (_, target) => (fullPathBuf v.cwd target).stores

end ShellCall

/-- The path fits its buffer, behind `cwd` and a slash if it is relative. -/
def JoinFits (cwd path : Str) : Prop :=
  if path.head? = some slash then path.length < vfsMaxPath
  else cwd.length + (if cwd.getLast? = some slash then 0 else 1) + path.length < vfsMaxPath

/-- The path fits its buffer, with the first binding for it applied. -/
def ResolveFits (path : Str) (ns : List Binding) : Prop :=
  match ns.find? fun b => b.oldPath <+: path with
  | none => path.length < vfsMaxPath
  | some b => b.newPath.length + (path.length - b.oldPath.length) < vfsMaxPath

/-- Every directory on the way fits its buffer, and the last one does with the bindings applied. -/
def CdFits (v : Vfs) (path : Str) : Prop :=
  let start := if path.head? = some slash then [] else tokens v.cwd
  (∀ k, (dirPath (follow start ((tokens path).take k))).length < vfsMaxPath) ∧
    ResolveFits (dirPath (follow start (tokens path))) v.ns

/-- **The condition.** -/
def ShellCall.Fits (v : Vfs) : ShellCall → Prop
  | cd args => args ≠ [] → args ≠ str ['.'] → args ≠ str ['.', '.'] → CdFits v args
  | mkdir args | touch args => args ≠ [] → JoinFits v.cwd args
  | rm args => ∀ recursive target, rmTarget args = some (recursive, target) → JoinFits v.cwd target

section Lengths

variable {v : Vfs} {cwd path : Str}

theorem resolveBuf_inside (path : Str) (ns : List Binding) :
    (resolveBuf path ns).Inside ↔ ResolveFits path ns := by
  induction ns with
  | nil => exact PathBuf.inside_copy
  | cons b ns ih =>
    unfold ResolveFits at ih ⊢
    rw [resolveBuf, List.find?_cons]
    by_cases hmatch : b.oldPath <+: path
    · rw [if_pos ((strncmp_eq_zero_iff b.old_nul).2 hmatch), decide_eq_true hmatch,
        PathBuf.inside_strcat, PathBuf.inside_copy]
      simp only [PathBuf.copy, List.length_drop]
      exact ⟨fun h => h.2, fun h => ⟨by omega, h⟩⟩
    · rw [if_neg (mt (strncmp_eq_zero_iff b.old_nul).1 hmatch), decide_eq_false hmatch]
      exact ih

/-- The process is in a directory whose path fits its buffer. -/
def InDir (v : Vfs) : Prop :=
  ∃ cs, AreNames cs ∧ v.cwd = dirPath cs ∧ v.cwd.length < vfsMaxPath

theorem withFd_cwd (r : Option VfsFile × Vfs) : (withFd r).2.cwd = r.2.cwd := by
  obtain ⟨file, v⟩ := r
  cases file with
  | none => rfl
  | some file =>
    simp only [withFd, allocFd]
    split <;> rfl

theorem vfsOpen_cwd (v : Vfs) (path : Str) : (vfsOpen v path).2.cwd = v.cwd := by
  rw [vfsOpen_eq, withFd_cwd]
  rfl

/-- **`cmd_cd`** stays inside the buffers if and only if `CdFits` holds, and leads to a
directory. -/
theorem cmdCd_spec (h : InDir v) (hlen : path.length ≤ 252) (hne : path ≠ [])
    (hdot : path ≠ str ['.']) (hdots : path ≠ str ['.', '.']) :
    ((∀ x ∈ (cmdCd v path).2, x < vfsMaxPath) ↔ CdFits v path) ∧
      (CdFits v path → InDir (cmdCd v path).1) := by
  obtain ⟨cs, hcs, hcwd, hlt⟩ := h
  have hmax : 252 < vfsMaxPath := by decide
  unfold CdFits
  rw [cmdCd, if_neg hne, if_neg hdot, if_neg hdots, hcwd, tokens_dirPath hcs]
  dsimp only
  -- the directory to start from
  generalize hstart : (if path.head? = some slash then [] else cs) = start
  generalize htemp : (if path.head? = some slash then
    ({ text := [], stores := [] } : PathBuf).root else PathBuf.copy (dirPath cs)) = temp
  generalize hrest : (if path.head? = some slash then path.drop 1 else path) = rest
  have hnames : AreNames start := by
    rw [← hstart]
    split
    · exact fun c hc => by cases hc
    · exact hcs
  have htext : temp.text = dirPath start := by
    rw [← htemp, ← hstart]
    split <;> rfl
  have hinside : temp.Inside := by
    rw [← htemp]
    split
    · exact PathBuf.inside_root
    · exact PathBuf.inside_copy.2 (hcwd ▸ hlt)
  have hshort : (dirPath start).length < vfsMaxPath := by
    rw [← hstart]
    split
    · decide
    · exact hcwd ▸ hlt
  have htokens : tokens rest = tokens path := by
    rw [← hrest]
    split
    · next habs =>
      obtain ⟨t, rfl⟩ := List.head?_eq_some_iff.1 habs
      exact (tokens_slash t).symm
    · rfl
  have hrestlen : rest.length ≤ 252 := by
    rw [← hrest]
    split
    · rw [List.length_drop]
      omega
    · exact hlen
  -- the loop
  obtain ⟨hloop, hcopied⟩ := cdLoop_eq (b := temp) (Nat.lt_succ_self rest.length)
    (Nat.le_refl rest.length) (fun x hx => Nat.lt_succ_iff.1 (List.mem_range.1 hx))
  rw [htokens] at hloop
  obtain ⟨hend, -, hendNames, hendInside⟩ := enterAll_spec htext hnames (areNames_tokens path)
  rw [← hloop] at hend hendInside
  generalize cdLoop rest.length (rest.length + 1) temp (List.range (rest.length + 1)) rest = r
    at hend hcopied hendInside
  have hresolve := resolveBuf_inside r.1.text v.ns
  have hopen := vfsOpen_cwd v r.1.text
  have hlast : (∀ k, (dirPath (follow start ((tokens path).take k))).length < vfsMaxPath) →
      (dirPath (follow start (tokens path))).length < vfsMaxPath := by
    intro hk
    have hall := hk (tokens path).length
    rwa [List.take_length] at hall
  have hends := hendInside hshort
  rw [and_iff_right hinside] at hends
  rw [← hends, ← hend]
  rw [← hends, ← hend] at hlast
  rw [← hresolve]
  have hparts : (∀ x ∈ r.1.stores ++ r.2 ++ (resolveBuf r.1.text v.ns).stores, x < vfsMaxPath) ↔
      r.1.Inside ∧ (resolveBuf r.1.text v.ns).Inside := by
    rw [List.forall_mem_append, List.forall_mem_append]
    have hr2 : ∀ x ∈ r.2, x < vfsMaxPath := fun x hx => by
      have hle := hcopied x hx
      omega
    rw [and_iff_left hr2]
    rfl
  split
  · exact ⟨hparts, fun _ => ⟨cs, hcs, hopen.trans hcwd, by rw [hopen]; exact hlt⟩⟩
  · constructor
    · rw [List.forall_mem_append, hparts]
      exact and_iff_left_of_imp fun hin => PathBuf.inside_copy.2 (hlast hin.1)
    · intro hin
      exact ⟨_, hendNames, hend, hlast hin.1⟩

/-! ## The other commands -/

/-- Only `cmd_cd` changes the directory. -/
theorem vfsCreate_cwd (v : Vfs) (path : Str) : (vfsCreate v path).2.cwd = v.cwd := by
  rw [vfsCreate_eq, withFd_cwd]
  unfold fsCreate
  cases createTarget v.mounts v.cwd path with
  | none => rfl
  | some target =>
    obtain ⟨fs, p⟩ := target
    cases fs <;> rfl

theorem cmdTouch_cwd (v : Vfs) (args : Str) : (cmdTouch v args).cwd = v.cwd := by
  have hcreate := vfsCreate_cwd v args
  unfold cmdTouch
  split
  · rfl
  · dsimp only
    split
    · exact hcreate
    · rw [← hcreate]
      unfold vfsClose
      split <;> rfl

theorem cmdMkdir_cwd (v : Vfs) (args : Str) : (cmdMkdir v args).cwd = v.cwd := by
  unfold cmdMkdir vfsMkdir
  split
  · rfl
  · cases mkdirTarget v.mounts v.cwd args with
    | none => rfl
    | some target =>
      obtain ⟨fs, p⟩ := target
      cases fs <;> rfl

theorem cmdRm_cwd {fuel : Nat} {w : Vfs} {args : Str} (h : cmdRm fuel v args = some w) :
    w.cwd = v.cwd := by
  unfold cmdRm at h
  cases htarget : rmTarget args with
  | none =>
    rw [htarget] at h
    cases h
    rfl
  | some r =>
    obtain ⟨recursive, target⟩ := r
    rw [htarget] at h
    cases recursive with
    | true =>
      obtain ⟨⟨ret, u⟩, hrun, rfl⟩ := Option.map_eq_some_iff.1 h
      unfold vfsRemoveRecursive at hrun
      split at hrun
      · cases hrun
        rfl
      · cases hrun
        rfl
      · obtain ⟨x, -, hx⟩ := Option.map_eq_some_iff.1 hrun
        cases hx
        rfl
    | false =>
      cases h
      unfold vfsUnlink
      cases unlinkTarget v.mounts v.cwd target with
      | none => rfl
      | some r =>
        obtain ⟨fs, p⟩ := r
        cases fs <;> rfl

end Lengths

/-! ## One command and whole runs -/

namespace InDir

variable {v w : Vfs} {a : ShellCall}

theorem frame (h : InDir v) (hcwd : w.cwd = v.cwd) : InDir w := by
  unfold InDir
  rw [hcwd]
  exact h

/-- The root directory. -/
theorem root (hcwd : v.cwd = [slash]) : InDir v := by
  have hnil : AreNames [] := fun c hc => by cases hc
  have hlen : v.cwd.length < vfsMaxPath := by
    rw [hcwd]
    decide
  exact ⟨[], hnil, hcwd, hlen⟩

/-- `cd ..` stores inside `cwd`, and leads to a directory. -/
theorem cd_parent (h : InDir v) : InDir (cmdCd v (str ['.', '.'])).1 ∧
    ∀ x ∈ (cmdCd v (str ['.', '.'])).2, x < vfsMaxPath := by
  obtain ⟨cs, hcs, hcwd, hlt⟩ := h
  obtain ⟨b, hb⟩ : ∃ b : PathBuf, b = { text := v.cwd, stores := [] } := ⟨_, rfl⟩
  have htext : b.text = dirPath cs := by rw [hb, ← hcwd]
  obtain ⟨hparent, l, hl, hin⟩ := getParentDir_spec htext hcs
  have hcd : cmdCd v (str ['.', '.']) =
      ({ v with cwd := (getParentDir b).text }, (getParentDir b).stores) := by
    rw [hb]
    rfl
  rw [hcd]
  constructor
  · refine ⟨cs.dropLast, hcs.dropLast, hparent, ?_⟩
    have hle := dirPath_dropLast_length cs
    dsimp only
    rw [hparent]
    rw [hcwd] at hlt
    omega
  · intro x hx
    rw [hl, hb, List.nil_append] at hx
    have hx' := hin x hx
    rw [htext, ← hcwd] at hx'
    omega

/-- A command with the right lengths leaves the process in a directory whose path fits. -/
theorem next (h : InDir v) (ha : a.Allowed) (hfits : a.Fits v) (hnext : a.Next v w) :
    InDir w := by
  cases a with
  | cd args =>
    rw [show w = _ from hnext]
    by_cases hne : args = []
    · exact .root (by rw [hne]; rfl)
    · by_cases hdot : args = str ['.']
      · rw [hdot]
        exact h
      · by_cases hdots : args = str ['.', '.']
        · rw [hdots]
          exact h.cd_parent.1
        · exact (cmdCd_spec h ha hne hdot hdots).2 (hfits hne hdot hdots)
  | mkdir args =>
    rw [show w = _ from hnext]
    exact h.frame (cmdMkdir_cwd v args)
  | touch args =>
    rw [show w = _ from hnext]
    exact h.frame (cmdTouch_cwd v args)
  | rm args =>
    obtain ⟨fuel, hrun⟩ := hnext
    exact h.frame (cmdRm_cwd hrun)

end InDir

end OsArm
