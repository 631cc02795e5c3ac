import OsArm.Abyss.Accesses
import OsArm.Abyss.Failures
import OsArm.Abyss.Survival
import OsArm.Shell.Editing
import OsArm.Shell.Leaks

/-!
# The shell's main loop (`shell` in `shell.c`)

`shell` reads a line, cuts the command off its arguments, compares it with the names of the commands
one after the other, and calls the function.

* `CommandName`, `dispatch` — the names, and the comparisons in memory.
* `runCommand`, `runInput` — one call, and what a buffer makes the shell do; `none` where a function
  goes on from the uninitialised `saveptr`, or its loop needs more fuel.
* `CommandFits` — what a command copies fits the buffers, and its directories their blocks.
* `MainLoop` — the main loop on a stream of bytes, as long as everything fits; each line is read
  into a buffer that holds anything.
* `session_iff` — on lines that fit the buffer the loop interprets the lines that were typed.
* `exhausted_session` — once all descriptors have been given away, the files that RAMFS has are the
  ones that it had, or empty.
-/

namespace OsArm

/-! ## The commands -/

/-- The commands that `shell` knows. -/
inductive CommandName
  | exit
  | echo
  | pwd
  | cd
  | ls
  | cp
  | touch
  | mv
  | rm
  | mkdir
  | bind
  | unbind

/-- What `cmd` is compared with. -/
def CommandName.text : CommandName → Str
  | exit => str ['e', 'x', 'i', 't']
  | echo => str ['e', 'c', 'h', 'o']
  | pwd => str ['p', 'w', 'd']
  | cd => str ['c', 'd']
  | ls => str ['l', 's']
  | cp => str ['c', 'p']
  | touch => str ['t', 'o', 'u', 'c', 'h']
  | mv => str ['m', 'v']
  | rm => str ['r', 'm']
  | mkdir => str ['m', 'k', 'd', 'i', 'r']
  | bind => str ['b', 'i', 'n', 'd']
  | unbind => str ['u', 'n', 'b', 'i', 'n', 'd']

/-- The order of the comparisons. -/
def commandNames : List CommandName :=
  [.exit, .echo, .pwd, .cd, .ls, .cp, .touch, .mv, .rm, .mkdir, .bind, .unbind]

/-- The comparisons, `cmd` being at the start of the buffer. -/
def dispatch (input : ByteMem) : Option CommandName :=
  commandNames.find? fun c => strcmp input 0 c.text = 0

/-- `unbind`, on the list of the current process: the first binding with the target is taken out. -/
def unbindFirst (path : Str) : List Binding → Option (List Binding)
  | [] => none
  | b :: ns => if strcmpStr b.newPath path = 0 then some ns else (unbindFirst path ns).map (b :: ·)

/-- `MSG_UNBIND`. -/
def sendUnbind (v : Vfs) (path : Str) : Int × Vfs :=
  match unbindFirst path v.ns with
  | none => (-1, v)
  | some ns => (0, { v with ns := ns })

instance nulFreeDecidable (s : Str) : Decidable (NulFree s) :=
  inferInstanceAs (Decidable ((0 : UInt8) ∉ s))

/-- `cmd_bind`; what `strtok_r` returns is a string. -/
def cmdBind (before : UInt8) (v : Vfs) (args : Str) : Vfs :=
  match twoArgs args with
  | none => v
  | some (old, new) =>
    if h : NulFree old ∧ NulFree new then
      (bind before v { oldPath := old, newPath := new, old_nul := h.1, new_nul := h.2 }).2
    else v

/-- `cmd_ls`: `MSG_READ_DIR` of the argument or the working directory, with room for 32 entries. -/
def cmdLs (before : UInt8) (v : Vfs) (path : Str) : Vfs :=
  (vfsReadDir before v (if path = [] then v.cwd else path) 32).2

/-- What comes of a line: the shell goes on, or has left through `exit_process`. -/
inductive LineResult
  | back (v : Vfs)
  | exits

/-- The call of a command, `args` being `NULL` when nothing follows its name.  Then `cmd_cp`,
`cmd_mv` and `cmd_bind` hand an uninitialised pointer to `strtok_r`. -/
def runCommand (before : UInt8) (fuel : Nat) (v : Vfs) :
    CommandName → Option Str → Option LineResult
  | .exit, _ => some .exits
  | .echo, _ | .pwd, _ => some (.back v)
  | .cd, args => some (.back (cmdCd v (args.getD [])).1)
  | .ls, args => some (.back (cmdLs before v (args.getD [])))
  | .cp, some args => (cmdCp fuel v args).map .back
  | .touch, args => some (.back (cmdTouch v (args.getD [])))
  | .mv, some args => (cmdMv fuel v args).map .back
  | .rm, args => (cmdRm fuel v (args.getD [])).map .back
  | .mkdir, args => some (.back (cmdMkdir v (args.getD [])))
  | .bind, some args => some (.back (cmdBind before v args))
  | .unbind, none => some (.back v)
  | .unbind, some args => some (.back (sendUnbind v args).2)
  | .cp, none | .mv, none | .bind, none => none

/-- What `shell` does with the buffer, once the blank has been looked for. -/
def runInput (before : UInt8) (fuel : Nat) (v : Vfs) (input : ByteMem) (args : Option Nat) :
    Option LineResult :=
  match dispatch input with
  | none => some (.back v)
  | some c => runCommand before fuel v c (args.map (input.cstring maxInput))

/-- One turn of the main loop, `input` holding `m` before it; with what is left of the bytes. -/
def shellTurn (before : UInt8) (fuel : Nat) (m : ByteMem) (v : Vfs) (bytes : List UInt8) :
    Option (LineResult × List UInt8) :=
  match readLine { input := m, pos := 0, stores := [] } bytes with
  | none => none
  | some (b, rest) =>
    let (input, args, _) := splitArgs b.input 0 b.pos
    (runInput before fuel v input args).map fun r => (r, rest)

/-! ## Buffers -/

/-- `vfs_create` of the path: it fits `full_path`; in RAMFS, with `"/tmp/"` in front, the path of a
slot; and in AbyssFS its entry fits the block of the directory. -/
structure CreateFits (v : Vfs) (path : Str) : Prop where
  joined : JoinFits v.cwd path
  ram : ∀ p, createTarget v.mounts v.cwd path = some (.ramfs, p) →
    (ramfsFullPath p).length < maxPath
  abyss : ∀ p, createTarget v.mounts v.cwd path = some (.abyssfs, p) → (allocInode v.abyss).1 ≠ 0 →
    ∀ c ∈ createFileAccesses (allocInode v.abyss).2 v.cwd (p.dropWhile (· = slash)), c.Inside

/-- `vfs_mkdir`. -/
structure MkdirFits (v : Vfs) (path : Str) : Prop where
  joined : JoinFits v.cwd path
  ram : ∀ p, mkdirTarget v.mounts v.cwd path = some (.ramfs, p) → p.length < maxPath
  abyss : ∀ p, mkdirTarget v.mounts v.cwd path = some (.abyssfs, p) → HasDirSpace v.abyss →
    ∀ c ∈ createFileAccesses (mkdirState v.abyss) v.cwd (basename (p.dropWhile (· = slash))),
      c.Inside

/-- `abyssfs_unlink`, if the call gets there, stays inside the root block. -/
def UnlinkFits (v : Vfs) (target : Option (FsType × Str)) : Prop :=
  ∀ p, target = some (.abyssfs, p) → ∀ c ∈ unlinkAccesses v.abyss p, c.Inside

/-- The loop of `abyssfs_remove_recursive` and the call behind it, `step` being what a turn does and
`accesses` what it reads and writes. -/
def loopAccesses (step : AbyssFs → Dirent → Option AbyssFs)
    (accesses : AbyssFs → Dirent → List Access) (path : Str) :
    AbyssFs → List Dirent → List Access
  | fs, [] => unlinkAccesses fs path
  | fs, e :: es => accesses fs e ++
      match step fs e with
      | none => []
      | some fs => loopAccesses step accesses path fs es

/-- `abyssfs_remove_recursive`, as deep as `fuel`. -/
def removeRecursiveAccesses : Nat → AbyssFs → Str → List Access
  | 0, _, _ => []
  | fuel + 1, fs, path =>
    readDirAccesses fs path 256 ++
      loopAccesses (removeStep (abyssfsRemoveRecursive fuel) path)
        (fun fs e =>
          if e.name = str ['.'] ∨ e.name = str ['.', '.'] then []
          else if (getInode fs e.inode).any fun inode => inode.mode &&& 0x4000 ≠ 0 then
            removeRecursiveAccesses fuel fs (path ++ [slash] ++ e.name)
          else unlinkAccesses fs (path ++ [slash] ++ e.name))
        path fs ((abyssfsReadDir fs path 256).getD [])

/-- `abyssfs_remove_recursive`, if the call gets there, stays inside the directories. -/
def RemoveRecursiveFits (v : Vfs) (target : Option (FsType × Str)) : Prop :=
  ∀ p, target = some (.abyssfs, p) → ∀ fuel, ∀ c ∈ removeRecursiveAccesses fuel v.abyss p, c.Inside

/-- `vfs_read_dir`: the path fits the buffer that it is rewritten in, and the walks stay inside the
directories. -/
structure ListFits (before : UInt8) (v : Vfs) (path : Str) (count : Nat) : Prop where
  resolved : (resolveNamespacePath before v.heap path v.ns).1.length < vfsMaxPath
  abyss : ∀ p, readDirTarget v.mounts (resolveNamespacePath before v.heap path v.ns).1 =
    some (.abyssfs, p) → ∀ c ∈ readDirAccesses v.abyss p count, c.Inside

/-- **The command stays inside the buffers** of the paths and inside the blocks of directories. -/
def CommandFits (before : UInt8) (v : Vfs) : CommandName → Option Str → Prop
  | .cd, args => (ShellCall.cd (args.getD [])).Fits v
  | .ls, args => ListFits before v (if args.getD [] = [] then v.cwd else args.getD []) 32
  | .cp, some args => ∀ src dst, twoArgs args = some (src, dst) →
      ResolveFits src v.ns ∧ CreateFits v dst
  | .mv, some args => ∀ src dst, twoArgs args = some (src, dst) →
      ResolveFits src v.ns ∧ CreateFits v dst ∧ JoinFits v.cwd src ∧
        ∀ fuel u, cmdCp fuel v (src ++ [blank] ++ dst) = some u →
          UnlinkFits u (unlinkTarget u.mounts u.cwd src)
  | .touch, args => args.getD [] ≠ [] → CreateFits v (args.getD [])
  | .mkdir, args => args.getD [] ≠ [] → MkdirFits v (args.getD [])
  | .rm, args => ∀ recursive target, rmTarget (args.getD []) = some (recursive, target) →
      JoinFits v.cwd target ∧
        if recursive then RemoveRecursiveFits v (removeRecursiveTarget v.mounts v.cwd target)
        else UnlinkFits v (unlinkTarget v.mounts v.cwd target)
  | .bind, some args => ∀ old new, twoArgs args = some (old, new) →
      ListFits before v old 1 ∧ ListFits before v new 1
  | _, _ => True

/-- What the buffer holds fits, once the blank has been looked for. -/
def InputFits (before : UInt8) (v : Vfs) (input : ByteMem) (args : Option Nat) : Prop :=
  ∀ c, dispatch input = some c → CommandFits before v c (args.map (input.cstring maxInput))

/-- The line that a turn reads fits `input`, and its command the other buffers. -/
def TurnFits (before : UInt8) (m : ByteMem) (v : Vfs) (bytes : List UInt8) : Prop :=
  ∀ b rest, readLine { input := m, pos := 0, stores := [] } bytes = some (b, rest) →
    (∃ line, EditsLine b line) ∧
      InputFits before v (splitArgs b.input 0 b.pos).1 (splitArgs b.input 0 b.pos).2.1

/-! ## The main loop -/

/-- What a turn finds on the stack: the bytes of `input`, and the byte before an empty path. -/
structure Remains where
  input : ByteMem
  before : UInt8

/-- **The main loop** has used up the bytes, each turn with what it found on the stack. -/
inductive MainLoop : List Remains → Vfs → List UInt8 → Vfs → Prop
  | done (v : Vfs) : MainLoop [] v [] v
  | turn {r : Remains} {rs : List Remains} {v u w : Vfs} {bytes rest : List UInt8} {fuel : Nat} :
      TurnFits r.before r.input v bytes →
      shellTurn r.before fuel r.input v bytes = some (.back u, rest) → MainLoop rs u rest w →
      MainLoop (r :: rs) v bytes w

/-! ## Lines -/

/-- The name and the arguments of a line. -/
def splitLine (line : Str) : Str × Option Str :=
  (line.takeWhile (· ≠ blank),
    if blank ∈ line then some (line.drop ((line.takeWhile (· ≠ blank)).length + 1)) else none)

/-- What a line makes the shell do. -/
def runLine (before : UInt8) (fuel : Nat) (v : Vfs) (line : Str) : Option LineResult :=
  match commandNames.find? fun c => c.text = (splitLine line).1 with
  | none => some (.back v)
  | some c => runCommand before fuel v c (splitLine line).2

/-- The command of the line fits. -/
def LineFits (before : UInt8) (v : Vfs) (line : Str) : Prop :=
  ∀ c, commandNames.find? (fun c => c.text = (splitLine line).1) = some c →
    CommandFits before v c (splitLine line).2

/-- Bytes that end with their only CR or LF. -/
def IsLine (bytes : List UInt8) : Prop :=
  ∃ pre e, bytes = pre ++ [e] ∧ isEnd e = true ∧ ∀ c ∈ pre, isEnd c = false

section Lines

variable {before : UInt8} {fuel : Nat} {v w : Vfs} {m input : ByteMem} {line : Str}
  {bytes rest : List UInt8} {b : LineBuf}

theorem commandText_nulFree (c : CommandName) : NulFree c.text := by
  cases c <;> decide

/-- The comparisons in memory compare the strings. -/
theorem dispatch_eq {cmd : Str} (h : input.CStringAt 0 cmd) (hcmd : NulFree cmd) :
    dispatch input = commandNames.find? fun c => c.text = cmd := by
  unfold dispatch
  congr 1
  funext c
  rw [decide_eq_decide, strcmp_eq_zero_iff (commandText_nulFree c)]
  constructor
  · intro hc
    exact hc.unique h (commandText_nulFree c) hcmd
  · rintro rfl
    exact h

/-- The buffer of a correctly edited line has its command and its arguments. -/
theorem EditsLine.command (h : EditsLine b line) :
    dispatch (splitArgs b.input 0 b.pos).1 =
        commandNames.find? (fun c => c.text = (splitLine line).1) ∧
      (splitArgs b.input 0 b.pos).2.1.map ((splitArgs b.input 0 b.pos).1.cstring maxInput) =
        (splitLine line).2 := by
  obtain ⟨hcmd, hargs⟩ := h.splits
  have hnul := h.nul_free
  have hlen := h.inside
  generalize (splitArgs b.input 0 b.pos).1 = input at hcmd hargs ⊢
  generalize (splitArgs b.input 0 b.pos).2.1 = args at hargs ⊢
  have hcmdnul : NulFree (line.takeWhile (· ≠ blank)) := fun h0 => hnul (List.takeWhile_subset _ h0)
  refine ⟨dispatch_eq hcmd hcmdnul, ?_⟩
  rw [splitLine]
  dsimp only
  cases args with
  | none =>
    have hno : blank ∉ line := hargs
    rw [if_neg hno, Option.map_none]
  | some a =>
    obtain ⟨rest, hline, rfl, hrest⟩ := hargs
    have hdrop : line.drop ((line.takeWhile (· ≠ blank)).length + 1) = rest := by
      generalize line.takeWhile (· ≠ blank) = front at hline ⊢
      rw [hline, List.drop_append]
      simp
    have hmem : blank ∈ line := by
      rw [hline]
      simp
    have hrestnul : NulFree rest := fun h0 => hnul (by rw [hline]; simp [h0])
    have hshort : rest.length < maxInput := by
      have hle := congrArg List.length hline
      rw [List.length_append, List.length_cons] at hle
      omega
    rw [if_pos hmem, Option.map_some, hrest.cstring_eq hrestnul hshort, hdrop]

/-- So it says what the line says. -/
theorem runInput_eq (h : EditsLine b line) : runInput before fuel v (splitArgs b.input 0 b.pos).1
    (splitArgs b.input 0 b.pos).2.1 = runLine before fuel v line := by
  rw [runInput, runLine, h.command.1, h.command.2]

theorem inputFits_iff (h : EditsLine b line) : InputFits before v (splitArgs b.input 0 b.pos).1
    (splitArgs b.input 0 b.pos).2.1 ↔ LineFits before v line := by
  rw [InputFits, LineFits, h.command.1, h.command.2]

/-- The reading loop reads a line that fits, and leaves the bytes behind it. -/
theorem readLine_line {b : LineBuf} {line pre : Str} {last e : UInt8} (hb : HoldsLine b line last)
    (hpre : ∀ c ∈ pre, isEnd c = false) (he : isEnd e = true)
    (hshort : ∀ x, x <+: pre → (x.foldl edit line).length < maxInput - 1) (rest : List UInt8) :
    ∃ b', readLine b (pre ++ e :: rest) = some (b', rest) := by
  have hpos : b.pos < maxInput - 1 := by
    rw [hb.pos]
    exact hshort [] List.nil_prefix
  induction pre generalizing b line with
  | nil =>
    have hend : e = 13 ∨ e = 10 := by simpa [isEnd] using he
    refine ⟨b.store 0, ?_⟩
    rw [List.nil_append, readLine, if_pos hpos, typeByte, if_pos hend]
  | cons c pre ih =>
    obtain ⟨hgoes, hb'⟩ := hb.typeByte (hb.pos ▸ hpos) (hpre c List.mem_cons_self)
    have hshort' : ∀ x, x <+: pre → (x.foldl edit (edit line c)).length < maxInput - 1 :=
      fun x hx => hshort (c :: x) (List.cons_prefix_cons.2 ⟨rfl, hx⟩)
    obtain ⟨b', hread⟩ := ih hb' (fun x hx => hpre x (List.mem_cons_of_mem c hx)) hshort' (by
      rw [hb'.pos]
      exact hshort' [] List.nil_prefix)
    refine ⟨b', ?_⟩
    rw [List.cons_append, readLine, if_pos hpos]
    generalize typeByte b c = r at hgoes hread ⊢
    obtain ⟨b₁, stop⟩ := r
    cases hgoes
    exact hread

theorem holdsLine_empty (m : ByteMem) :
    HoldsLine { input := m, pos := 0, stores := [] } [] (m (maxInput - 1)) :=
  ⟨rfl, fun i hi => absurd hi (Nat.not_lt_zero i), List.not_mem_nil, rfl, fun x hx => by cases hx⟩

/-- What the reading loop leaves of a line that fits, whatever `input` held. -/
theorem readLine_edits (hline : IsLine bytes) (hshort : Short bytes) (m : ByteMem)
    (rest : List UInt8) :
    ∃ b, readLine { input := m, pos := 0, stores := [] } (bytes ++ rest) = some (b, rest) ∧
      EditsLine b (typed bytes) := by
  obtain ⟨pre, e, rfl, he, hpre⟩ := hline
  rw [List.append_assoc, List.singleton_append]
  rw [Short, takeWhile_isEnd hpre he] at hshort
  have htyped : typed (pre ++ [e]) = pre.foldl edit [] := by rw [typed, takeWhile_isEnd hpre he]
  obtain ⟨b, hread⟩ := readLine_line (holdsLine_empty m) hpre he hshort rest
  refine ⟨b, hread, ?_⟩
  rcases readLine_spec (holdsLine_empty m) (Nat.zero_le _) hread with
    ⟨pre', e', hbytes, he', hpre', hholds, hzero, -⟩ | ⟨used, hbytes, hused, -, -⟩
  · have hcut : (pre' ++ e' :: rest).takeWhile (fun c => ¬ isEnd c) = pre' :=
      takeWhile_isEnd hpre' he'
    rw [← hbytes, takeWhile_isEnd hpre he] at hcut
    rw [← hcut] at hholds hzero
    rw [htyped]
    exact hholds.editsLine (Nat.le_of_lt (hshort pre (List.prefix_refl pre))) hzero
  · have hmem : e ∈ used := by
      rw [List.append_cons] at hbytes
      have hused' := List.append_cancel_right hbytes
      rw [← hused']
      simp
    rw [hused e hmem] at he
    cases he

/-- **One turn** on a line that fits: the line that was typed is run. -/
theorem shellTurn_line (hline : IsLine bytes) (hshort : Short bytes) (m : ByteMem)
    (rest : List UInt8) :
    shellTurn before fuel m v (bytes ++ rest) =
      (runLine before fuel v (typed bytes)).map fun r => (r, rest) := by
  obtain ⟨b, hread, hedits⟩ := readLine_edits hline hshort m rest
  rw [shellTurn, hread]
  dsimp only
  rw [← runInput_eq hedits]

/-- It fits if its command does. -/
theorem turnFits_line (hline : IsLine bytes) (hshort : Short bytes) (m : ByteMem)
    (rest : List UInt8) :
    TurnFits before m v (bytes ++ rest) ↔ LineFits before v (typed bytes) := by
  obtain ⟨b, hread, hedits⟩ := readLine_edits hline hshort m rest
  rw [← inputFits_iff hedits]
  constructor
  · intro h
    exact (h b rest hread).2
  · intro h b' rest' hread'
    obtain ⟨rfl, -⟩ := Prod.mk.inj (Option.some.inj (hread.symm.trans hread'))
    exact ⟨⟨_, hedits⟩, h⟩

theorem IsLine.ne_nil (h : IsLine bytes) : bytes ≠ [] := by
  obtain ⟨pre, e, rfl, -⟩ := h
  simp

/-- A line and its end. -/
theorem isLine_concat {pre : List UInt8} {e : UInt8} (hpre : ∀ c ∈ pre, isEnd c = false)
    (he : isEnd e = true) (hlen : ∀ x ∈ pre.inits, (x.foldl edit []).length < maxInput - 1) :
    IsLine (pre ++ [e]) ∧ Short (pre ++ [e]) := by
  refine ⟨⟨pre, e, rfl, he, hpre⟩, ?_⟩
  intro x hx
  rw [takeWhile_isEnd hpre he] at hx
  exact hlen x ((List.mem_inits x pre).2 hx)

end Lines

/-! ## Sessions without descriptors -/

/-- The files that are left are as they were, or new and empty. -/
def RamFs.Faded (ram ram' : RamFs) : Prop :=
  ∀ k, (ram'.files k).used = true → ram'.files k = ram.files k ∨ (ram'.files k).size = 0

/-- The descriptors have been given away, and the files fade. -/
structure Faded (v w : Vfs) : Prop where
  nextFd : maxFd ≤ w.nextFd
  ram : v.ram.Faded w.ram

section Exhausted

variable {before : UInt8} {fuel : Nat} {v u w : Vfs} {ram ram' ram'' : RamFs}

theorem RamFs.Faded.refl (ram : RamFs) : ram.Faded ram := fun _ _ => Or.inl rfl

theorem RamFs.Faded.trans (h : ram.Faded ram') (h' : ram'.Faded ram'') : ram.Faded ram'' := by
  intro k hk
  rcases h' k hk with heq | hempty
  · rw [heq] at hk ⊢
    exact h k hk
  · exact Or.inr hempty

/-- A slot is emptied, or filled with an empty file. -/
theorem RamFs.Faded.setFile (ram : RamFs) (i : Nat) {f : RamfsFile} (hf : f.size = 0) :
    ram.Faded (ram.setFile i f) := by
  intro k _
  by_cases hk : k = i
  · rw [hk, setFile_self]
    exact Or.inr hf
  · rw [setFile_of_ne hk]
    exact Or.inl rfl

theorem ramfsCreate_faded (heap : Heap) (ram : RamFs) (path : Str) :
    ram.Faded (ramfsCreate heap ram path).2.2 := by
  unfold ramfsCreate
  cases findFree ram with
  | none => exact .refl ram
  | some i =>
    dsimp only
    cases kalloc heap sizeofVfsFile <;> exact .setFile ram i rfl

theorem ramfsUnlink_faded (ram : RamFs) (path : Str) : ram.Faded (ramfsUnlink ram path).2 := by
  unfold ramfsUnlink
  cases findUsed ram path with
  | none => exact .refl ram
  | some i => exact .setFile ram i rfl

theorem ramfsMkdir_faded (ram : RamFs) (path : Str) : ram.Faded (ramfsMkdir ram path).2 := by
  unfold ramfsMkdir
  cases findFree ram with
  | none => exact .refl ram
  | some i => exact .setFile ram i rfl

theorem Faded.of_frame (hfull : maxFd ≤ v.nextFd) (hnext : w.nextFd = v.nextFd)
    (hram : w.ram = v.ram) :
    Faded v w where
  nextFd := hnext ▸ hfull
  ram := hram ▸ .refl v.ram

theorem Faded.trans (h : Faded v u) (h' : Faded u w) : Faded v w := ⟨h'.nextFd, h.ram.trans h'.ram⟩

theorem withFd_ram (r : Option VfsFile × Vfs) : (withFd r).2.ram = r.2.ram := by
  obtain ⟨file, v⟩ := r
  cases file with
  | none => rfl
  | some file =>
    rw [withFd, allocFd]
    split <;> rfl

/-- No call that opens succeeds any more. -/
theorem OpenCall.exhausted (hfull : maxFd ≤ v.nextFd) (c : OpenCall) :
    (c.apply v).1 = -1 ∧ Faded v (c.apply v).2 := by
  rcases c.apply_spec v with ⟨-, hret, -, hnext⟩ | ⟨-, -, hlt, -⟩
  · refine ⟨hret, hnext ▸ hfull, ?_⟩
    rw [c.apply_eq, withFd_ram]
    cases c with
    | create path =>
      rw [OpenCall.file, fsCreate]
      cases createTarget v.mounts v.cwd path with
      | none => exact .refl v.ram
      | some target =>
        obtain ⟨fs, fullPath⟩ := target
        cases fs with
        | ramfs => exact ramfsCreate_faded v.heap v.ram fullPath
        | abyssfs => exact .refl v.ram
    | openPath path => exact .refl v.ram
  · exact absurd hlt (Nat.not_lt.2 hfull)

theorem vfsUnlink_faded (hfull : maxFd ≤ v.nextFd) (path : Str) : Faded v (vfsUnlink v path).2 := by
  refine ⟨((FdCall.paths_frame v).1 path).2 ▸ hfull, ?_⟩
  unfold vfsUnlink
  cases unlinkTarget v.mounts v.cwd path with
  | none => exact .refl v.ram
  | some target =>
    obtain ⟨fs, p⟩ := target
    cases fs with
    | ramfs => exact ramfsUnlink_faded v.ram p
    | abyssfs => exact .refl v.ram

theorem vfsMkdir_faded (hfull : maxFd ≤ v.nextFd) (path : Str) : Faded v (vfsMkdir v path).2 := by
  refine ⟨((FdCall.paths_frame v).2.1 path).2 ▸ hfull, ?_⟩
  unfold vfsMkdir
  cases mkdirTarget v.mounts v.cwd path with
  | none => exact .refl v.ram
  | some target =>
    obtain ⟨fs, p⟩ := target
    cases fs with
    | ramfs => exact ramfsMkdir_faded v.ram p
    | abyssfs => exact .refl v.ram

/-- `cmd_cd` cannot open the directory. -/
theorem cmdCd_faded (hfull : maxFd ≤ v.nextFd) (path : Str) : Faded v (cmdCd v path).1 := by
  unfold cmdCd
  split
  · exact .of_frame hfull rfl rfl
  split
  · exact .of_frame hfull rfl rfl
  split
  · exact .of_frame hfull rfl rfl
  · dsimp only
    obtain ⟨hret, hfaded⟩ := (OpenCall.openPath
      (cdLoop (if path.head? = some slash then path.drop 1 else path).length
        ((if path.head? = some slash then path.drop 1 else path).length + 1)
        (if path.head? = some slash then ({ text := [], stores := [] } : PathBuf).root
          else PathBuf.copy v.cwd)
        (List.range ((if path.head? = some slash then path.drop 1 else path).length + 1))
        (if path.head? = some slash then path.drop 1 else path)).1.text).exhausted hfull
    simp only [OpenCall.apply] at hret hfaded
    rw [hret, if_pos (by decide)]
    exact hfaded

/-- `cmd_cp` cannot open its source, and its loop is not reached. -/
theorem cmdCp_faded (hfull : maxFd ≤ v.nextFd) {args : Str} (h : cmdCp fuel v args = some w) :
    Faded v w := by
  unfold cmdCp at h
  split at h
  · cases h
    exact .of_frame hfull rfl rfl
  · next src dst _ =>
    obtain ⟨hret, hfaded⟩ := (OpenCall.openPath src).exhausted hfull
    simp only [OpenCall.apply] at hret hfaded
    dsimp only at h
    rw [hret, if_pos (by decide)] at h
    cases h
    exact hfaded

/-- `cmd_mv` removes its source nevertheless. -/
theorem cmdMv_faded (hfull : maxFd ≤ v.nextFd) {args : Str} (h : cmdMv fuel v args = some w) :
    Faded v w := by
  unfold cmdMv at h
  split at h
  · cases h
    exact .of_frame hfull rfl rfl
  · obtain ⟨u, hcp, rfl⟩ := Option.map_eq_some_iff.1 h
    have hcopied := cmdCp_faded hfull hcp
    exact hcopied.trans (vfsUnlink_faded hcopied.nextFd _)

/-- `cmd_touch` makes an empty file and has no descriptor to close. -/
theorem cmdTouch_faded (hfull : maxFd ≤ v.nextFd) (args : Str) : Faded v (cmdTouch v args) := by
  unfold cmdTouch
  split
  · exact .of_frame hfull rfl rfl
  · obtain ⟨hret, hfaded⟩ := (OpenCall.create args).exhausted hfull
    simp only [OpenCall.apply] at hret hfaded
    dsimp only
    rw [hret, if_pos (by decide)]
    exact hfaded

theorem cmdRm_faded (hfull : maxFd ≤ v.nextFd) {args : Str} (h : cmdRm fuel v args = some w) :
    Faded v w := by
  have hnext := (cmdRm_frame h).2
  unfold cmdRm at h
  split at h
  · cases h
    exact .of_frame hfull rfl rfl
  · obtain ⟨⟨ret, u⟩, hrun, rfl⟩ := Option.map_eq_some_iff.1 h
    refine .of_frame hfull hnext ?_
    unfold vfsRemoveRecursive at hrun
    split at hrun
    · cases hrun
      rfl
    · cases hrun
      rfl
    · obtain ⟨x, -, hx⟩ := Option.map_eq_some_iff.1 hrun
      cases hx
      rfl
  · cases h
    exact vfsUnlink_faded hfull _

theorem cmdBind_faded (hfull : maxFd ≤ v.nextFd) (args : Str) :
    Faded v (cmdBind before v args) := by
  unfold cmdBind
  split
  · exact .of_frame hfull rfl rfl
  · split
    · exact .of_frame hfull (bind_frame before v _).2 (bind_ram before v _)
    · exact .of_frame hfull rfl rfl

/-- **One command.** -/
theorem runCommand_faded (hfull : maxFd ≤ v.nextFd) {c : CommandName} {args : Option Str}
    (h : runCommand before fuel v c args = some (.back w)) : Faded v w := by
  have hmap : ∀ {r : Option Vfs}, r.map LineResult.back = some (.back w) → r = some w := by
    intro r hr
    obtain ⟨u, rfl, hu⟩ := Option.map_eq_some_iff.1 hr
    cases hu
    rfl
  cases c with
  | exit => cases h
  | echo =>
    cases h
    exact .of_frame hfull rfl rfl
  | pwd =>
    cases h
    exact .of_frame hfull rfl rfl
  | cd =>
    cases h
    exact cmdCd_faded hfull _
  | ls =>
    cases h
    exact .of_frame hfull ((FdCall.paths_frame v).2.2 _ _ _).2 (vfsReadDir_ram before v _ _)
  | cp =>
    cases args with
    | none => cases h
    | some args => exact cmdCp_faded hfull (hmap h)
  | touch =>
    cases h
    exact cmdTouch_faded hfull _
  | mv =>
    cases args with
    | none => cases h
    | some args => exact cmdMv_faded hfull (hmap h)
  | rm => exact cmdRm_faded hfull (hmap h)
  | mkdir =>
    cases h
    unfold cmdMkdir
    split
    · exact .of_frame hfull rfl rfl
    · exact vfsMkdir_faded hfull _
  | bind =>
    cases args with
    | none => cases h
    | some args =>
      cases h
      exact cmdBind_faded hfull args
  | unbind =>
    cases args with
    | none =>
      cases h
      exact .of_frame hfull rfl rfl
    | some args =>
      cases h
      unfold sendUnbind
      split <;> exact .of_frame hfull rfl rfl

/-- One turn of the main loop, on any bytes. -/
theorem shellTurn_faded (hfull : maxFd ≤ v.nextFd) {m : ByteMem} {bytes rest : List UInt8}
    (h : shellTurn before fuel m v bytes = some (.back w, rest)) : Faded v w := by
  unfold shellTurn at h
  split at h
  · cases h
  · obtain ⟨r, hr, heq⟩ := Option.map_eq_some_iff.1 h
    obtain ⟨rfl, -⟩ := Prod.mk.inj heq
    unfold runInput at hr
    split at hr
    · cases hr
      exact .of_frame hfull rfl rfl
    · exact runCommand_faded hfull hr

/-- **Without descriptors the shell writes nothing.**  Once `next_fd` is at the end, it stays
there whatever bytes are typed, as long as everything fits its buffers; and a file that RAMFS has
afterwards is one that it had, with every byte, or is empty. -/
theorem exhausted_session {rs : List Remains} {bytes : List UInt8} (hfull : maxFd ≤ v.nextFd)
    (h : MainLoop rs v bytes w) : maxFd ≤ w.nextFd ∧ ∀ k, (w.ram.files k).used = true →
      w.ram.files k = v.ram.files k ∨ (w.ram.files k).size = 0 := by
  have hfaded : Faded v w := by
    induction h with
    | done v => exact .of_frame hfull rfl rfl
    | turn _ hturn _ ih =>
      have hstep := shellTurn_faded hfull hturn
      exact hstep.trans (ih hstep.nextFd)
  exact ⟨hfaded.nextFd, hfaded.ram⟩

end Exhausted

/-- The file `b` in `/tmp`. -/
def tmpB : Str := tmpSlash ++ str ['b']

/-- `touch /tmp/b` when no descriptor is left, beside `/tmp/a`. -/
theorem exhausted_session_touch : maxFd ≤ (cmdTouch (withTmpA maxFd) tmpB).nextFd ∧
    ∀ k, ((cmdTouch (withTmpA maxFd) tmpB).ram.files k).used = true →
      (cmdTouch (withTmpA maxFd) tmpB).ram.files k = (withTmpA maxFd).ram.files k ∨
        ((cmdTouch (withTmpA maxFd) tmpB).ram.files k).size = 0 := by
  obtain ⟨v, hv⟩ : ∃ v, v = withTmpA maxFd := ⟨_, rfl⟩
  have hboot : v.mounts = bootMounts ∧ v.cwd = [slash] ∧ v.nextFd = maxFd := by
    rw [hv]
    exact ⟨rfl, rfl, rfl⟩
  rw [← hv]
  have hline : IsLine ([116, 111, 117, 99, 104, 32, 47, 116, 109, 112, 47, 98] ++ [13]) ∧
      Short ([116, 111, 117, 99, 104, 32, 47, 116, 109, 112, 47, 98] ++ [13]) :=
    isLine_concat (by decide +kernel) (by decide) (by decide +kernel)
  have htarget : createTarget v.mounts v.cwd tmpB = some (.ramfs, tmpB) := by
    rw [hboot.1, hboot.2.1]
    decide
  have hcreate : CreateFits v tmpB := by
    refine ⟨?_, fun p hp => ?_, fun p hp => ?_⟩
    · rw [hboot.2.1]
      unfold JoinFits
      decide
    · rw [htarget] at hp
      obtain rfl : tmpB = p := (Prod.mk.inj (Option.some.inj hp)).2
      decide
    · rw [htarget] at hp
      cases hp
  have hfits : LineFits 0 v
      (typed ([116, 111, 117, 99, 104, 32, 47, 116, 109, 112, 47, 98] ++ [13])) := by
    intro c hc
    obtain rfl : CommandName.touch = c := Option.some.inj hc
    exact fun _ => hcreate
  have hturn : shellTurn 0 0 (fun _ => 0) v
      ([116, 111, 117, 99, 104, 32, 47, 116, 109, 112, 47, 98] ++ [13] ++ []) =
        some (.back (cmdTouch v tmpB), []) := by
    rw [shellTurn_line hline.1 hline.2]
    rfl
  have hsession : MainLoop [{ input := fun _ => 0, before := 0 }] v
      ([116, 111, 117, 99, 104, 32, 47, 116, 109, 112, 47, 98] ++ [13] ++ []) (cmdTouch v tmpB) :=
    .turn ((turnFits_line hline.1 hline.2 _ _).2 hfits) hturn (.done _)
  exact exhausted_session (Nat.le_of_eq hboot.2.2.symm) hsession

end OsArm
