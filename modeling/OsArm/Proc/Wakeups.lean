import OsArm.Proc.Waiting

/-!
# Wake-ups

A process that waits is woken by the exit of a child.  So it must have a child that
can still exit, and no child whose exit it has missed.

* `Wakeable` — that this is so for every blocked process; `WaitCall.Safe` — what the
  caller has to see to before it blocks.
* `wakeable_step` — one call keeps it if and only if its caller has.
* `wakeable_run` — every run.
-/

namespace OsArm

/-- Every blocked process has a child that has not exited, and has been told of those
that have. -/
def Wakeable (w : WaitState) : Prop :=
  ∀ p, Taken w.procs p → (w.procs.proc p).state = .blocked →
    (∃ q, Taken w.procs q ∧ Child w.procs q p ∧ ¬ Ended w.procs q) ∧
    ∀ q, Taken w.procs q → Child w.procs q p → (w.procs.proc q).state = .zombie → w.told q = true

/-- A caller that is going to block has a child that has not exited, and has been told
of those that have. -/
def WaitCall.Safe (w : WaitState) (call : WaitCall) : Prop :=
  ∀ c, w.procs.currentProcess = some c → call.Blocks w.procs c →
    (∃ q, Taken w.procs q ∧ Child w.procs q c ∧ ¬ Ended w.procs q) ∧
    ∀ q, Taken w.procs q → Child w.procs q c → (w.procs.proc q).state = .zombie → w.told q = true

/-- The runs whose calls are safe. -/
def safeLts : Lts WaitState (WaitCall × Option Reply) where
  step w a w' := waitLts.step w a w' ∧ a.1.Safe w

section Step

variable {ps : List ProcPtr} {c n : ProcPtr} {w w' : WaitState} {call : WaitCall} {r : Option Reply}

theorem WaitState.tell_told {found : Option ProcPtr} {q : ProcPtr} :
    (w.tell found).told q = true ↔ w.told q = true ∨ found = some q := by
  simp [WaitState.tell]

/-- What has been told stays told; what is told anew is told to a caller that does not
block, or to the process that runs next. -/
theorem told_step (h : Family ps w.procs) (hc : w.procs.currentProcess = some c)
    (hstep : waitStep w call = .ok (w', r)) {q : ProcPtr} :
    (w.told q = true → w'.told q = true) ∧
    (w'.told q = true → w.told q = true ∨
      Child w.procs q c ∧ ¬ call.Blocks w.procs c ∨
      ∃ n, w'.procs.currentProcess = some n ∧ Child w'.procs q n) := by
  obtain ⟨happly, ⟨p, reply, hp, hfound, -, htold⟩ | ⟨-, n, hn, w₁, htold, hprocs, hresumes⟩⟩ :=
    waitStep_spec h.table hc hstep
  · rw [htold, WaitState.tell_told]
    refine ⟨Or.inl, ?_⟩
    rintro (hq | hq)
    · exact Or.inl hq
    · refine Or.inr (Or.inl ⟨?_, ?_⟩)
      · rw [← Option.some.inj hq]
        exact (h.table.exitedChild_some hp).2.1
      · cases hfound <;> simp [WaitCall.Blocks, hp]
  · obtain ⟨new, hfamily, -, -⟩ := h.step hc happly
    cases hresumes with
    | quiet _ =>
      rw [htold]
      exact ⟨id, Or.inl⟩
    | sendWait msg out ret _ _ =>
      show (w.told q = true → (w₁.tell _).told q = true) ∧ ((w₁.tell _).told q = true → _)
      rw [WaitState.tell_told, htold]
      refine ⟨Or.inl, ?_⟩
      rintro (hq | hq)
      · exact Or.inl hq
      · exact Or.inr (Or.inr ⟨n, hn, (hfamily.table.exitedChild_some hq).2.1⟩)
    | handleWait msg _ =>
      show (w.told q = true → w₁.told q = true) ∧ (w₁.told q = true → _)
      rw [htold]
      exact ⟨id, Or.inl⟩

/-- A process that was there has exited if it had, or if it was the caller and the call
was its exit. -/
theorem ended_step (h : Family ps w.procs) {t : Procs}
    (hturns : Turns ps c (call.Blocks w.procs c) call.Exits (call.reaped w.procs c) w.procs t)
    {q : ProcPtr} (hq : q ∈ ps) : Ended t q ↔ call.Exits ∧ q = c ∨ Ended w.procs q := by
  have hreaped : call.reaped w.procs c = some q → (w.procs.proc q).state = .zombie := by
    intro hsome
    cases call with
    | handleWaitMessage msg => exact (h.table.exitedChild_some hsome).2.2
    | _ => cases hsome
  rw [Ended, hturns.zombie q hq, hturns.dead q hq, Ended]
  by_cases hsome : call.reaped w.procs c = some q
  · simp [hsome, hreaped hsome]
  · simp [hsome, or_assoc]

/-- **One call** leaves every blocked process with a child to wake it if and only if it
is safe. -/
theorem wakeable_step (h : Family ps w.procs) (hw : Wakeable w)
    (hstep : waitStep w call = .ok (w', r)) : Wakeable w' ↔ call.Safe w := by
  obtain ⟨c, hc, hrun⟩ := h.table.handover
  have happly := (waitStep_spec h.table hc.current hstep).1
  obtain ⟨new, hfamily, hnone, hnew⟩ := h.step hc.current happly
  have hturns := turns_of_apply h.table hc.current happly
  have hchild : ∀ q ∈ ps, ∀ p ∈ ps, Child w'.procs q p ↔ Child w.procs q p := by
    intro q hq p hp
    rw [Child, Child, (h.fields hc.current happly hp).1, (h.fields hc.current happly hq).2.1]
  have htaken : ∀ p ∈ ps, Taken w'.procs p := fun p hp =>
    (hfamily.mem p).1 (List.mem_append_right _ hp)
  have htold : ∀ {q}, _ := fun {q} => told_step h hc.current hstep (q := q)
  constructor
  · intro hw' d hd hblocks
    rw [hc.current] at hd
    rw [← Option.some.inj hd] at hblocks ⊢
    obtain ⟨hexits, hreaped, hforks⟩ := hblocks.alone
    have hnew_nil := hnone hforks
    rw [hnew_nil, List.nil_append] at hfamily
    have hblocked := (hturns.blocked c hc.mem).2 (Or.inl ⟨hblocks, rfl⟩)
    obtain ⟨⟨q, hq, hqc, hlive⟩, htold'⟩ := hw' c (htaken c hc.mem) hblocked
    have hqps := (hfamily.mem q).2 hq
    refine ⟨⟨q, (h.mem q).1 hqps, (hchild q hqps c hc.mem).1 hqc, ?_⟩, ?_⟩
    · rw [ended_step h hturns hqps] at hlive
      exact fun hended => hlive (Or.inr hended)
    · intro z hz hzc hzombie
      have hzps := (h.mem z).2 hz
      have hzombie' := (hturns.zombie z hzps).2 (Or.inr ⟨hzombie, by simp [hreaped]⟩)
      have hzc' := (hchild z hzps c hc.mem).2 hzc
      rcases htold.2 (htold' z (htaken z hzps) hzc' hzombie') with
        htold_z | ⟨-, hnot⟩ | ⟨n, hn, hzn⟩
      · exact htold_z
      · exact absurd hblocks hnot
      · -- the process that runs next is not the one that has just blocked
        obtain ⟨hm, hmrun⟩ := hfamily.table.handover_of hn
        have hcn : c = n :=
          hfamily.table.listed.pid_inj c hc.mem n hm.mem (hzc'.symm.trans hzn)
        rw [hcn, hmrun] at hblocked
        cases hblocked
  · intro hsafe p hp hblocked
    rw [← hfamily.mem, List.mem_append] at hp
    rcases hp with hp | hp
    · rw [(hnew p hp).2.1] at hblocked
      cases hblocked
    have hzombies : ∀ q, Taken w'.procs q → Child w'.procs q p → (w'.procs.proc q).state = .zombie →
        q ∈ ps ∧ (call.Exits ∧ q = c ∨ (w.procs.proc q).state = .zombie) := by
      intro q hq hqp hzombie
      rw [← hfamily.mem, List.mem_append] at hq
      rcases hq with hq | hq
      · rw [(hnew q hq).2.1] at hzombie
        cases hzombie
      · exact ⟨hq, ((hturns.zombie q hq).1 hzombie).imp_right And.left⟩
    -- `p` has just blocked, or it was blocked and no child of it has exited
    have hbefore : ¬ (call.Exits ∧ (w.procs.proc c).parentPid = (w.procs.proc p).pid) ∧
        (∃ q, Taken w.procs q ∧ Child w.procs q p ∧ ¬ Ended w.procs q) ∧
        ∀ q, Taken w.procs q → Child w.procs q p → (w.procs.proc q).state = .zombie →
          w.told q = true := by
      rcases (hturns.blocked p hp).1 hblocked with ⟨hblocks, rfl⟩ | ⟨hblocked', hnot⟩
      · exact ⟨fun hexits => hblocks.alone.1 hexits.1, hsafe p hc.current hblocks⟩
      · exact ⟨hnot, hw p ((h.mem p).1 hp) hblocked'⟩
    obtain ⟨hnot, ⟨q, hq, hqp, hlive⟩, htold_s⟩ := hbefore
    have hqps := (h.mem q).2 hq
    refine ⟨⟨q, htaken q hqps, (hchild q hqps p hp).2 hqp, ?_⟩, ?_⟩
    · rw [ended_step h hturns hqps]
      rintro (⟨hexits, rfl⟩ | hended)
      · exact hnot ⟨hexits, hqp⟩
      · exact hlive hended
    · intro z hz hzp hzombie
      obtain ⟨hzps, hzombie'⟩ := hzombies z hz hzp hzombie
      have hzp' := (hchild z hzps p hp).1 hzp
      rcases hzombie' with ⟨hexits, rfl⟩ | hzombie'
      · exact absurd ⟨hexits, hzp'⟩ hnot
      · exact htold.1 (htold_s z ((h.mem z).1 hzps) hzp' hzombie')

end Step

section Progress

variable {ps : List ProcPtr} {c : ProcPtr} {w : WaitState} {call : WaitCall}

/-- The loop of a resumed wait ends. -/
theorem sendWaitResumed_ok (h : Table ps w.procs) (n : ProcPtr) (msg : Message) :
    ∃ r, sendWaitResumed w.procs n msg = .ok r := by
  rw [sendWaitResumed, (h.findZombie_eq n).1]
  cases exitedChild w.procs n with
  | none => exact ⟨_, rfl⟩
  | some q => exact ⟨_, rfl⟩

/-- A process that goes on returns from its wait. -/
theorem resume_ok (h : Table ps w.procs) : ∃ x, w.resume = .ok x := by
  obtain ⟨n, hn, -⟩ := h.handover
  rw [WaitState.resume, Procs.getCurrentProcess_eq hn.current, ok_bind]
  cases w.pending n with
  | none => exact ⟨_, rfl⟩
  | some wait =>
    obtain ⟨path, msg⟩ := wait
    cases path with
    | sendWait =>
      obtain ⟨r, hr⟩ := sendWaitResumed_ok h n msg
      dsimp only
      rw [hr, ok_bind]
      exact ⟨_, rfl⟩
    | handleWait => exact ⟨_, rfl⟩

/-- Of processes none of which is ready or running, a blocked one waits for a younger
blocked one, that for a younger one still, and so on. -/
theorem exists_ready {s : Procs} (hfamily : Family ps w.procs) {c : ProcPtr} (hcps : c ∈ ps)
    (hs : ∀ p ∈ ps, (s.proc p).state = .blocked ∨ Ended s p ∨ (s.proc p).state = .ready)
    (hc : (s.proc c).state = .blocked)
    (hwait : ∀ p ∈ ps, (s.proc p).state = .blocked →
      ∃ q ∈ ps, Child w.procs q p ∧ ¬ Ended s q) :
    ∃ p ∈ ps, (s.proc p).state = .ready := by
  by_contra hnone
  have hstep : ∀ n, ∀ p ∈ ps, (s.proc p).state = .blocked →
      (w.procs.nextPid - (w.procs.proc p).pid).toNat = n → False := by
    intro n
    induction n using Nat.strong_induction_on with
    | _ n ih =>
      intro p hp hblocked hn
      obtain ⟨q, hq, hqp, hlive⟩ := hwait p hp hblocked
      have hqblocked : (s.proc q).state = .blocked := by
        rcases hs q hq with hb | hend | hready
        · exact hb
        · exact absurd hend hlive
        · exact absurd ⟨q, hq, hready⟩ hnone
      have holder := hfamily.older q hq
      rw [hqp] at holder
      have hlt := hfamily.table.listed.pid_lt q hq
      exact ih _ (by omega) q hq hqblocked rfl
  exact hstep _ c hcps hc rfl

/-- A safe caller that blocks leaves a ready process behind. -/
theorem blockCurrent_ok (h : Family ps w.procs) (hw : Wakeable w)
    (hc : w.procs.currentProcess = some c) (hsafe : call.Safe w) (hblocks : call.Blocks w.procs c) :
    ∃ t, blockCurrent w.procs c = .ok t := by
  obtain ⟨hd, hrun⟩ := h.table.handover_of hc
  have hended : ∀ q, Ended (w.procs.setState c .blocked) q ↔ Ended w.procs q := by
    intro q
    rw [Ended, Ended, Procs.setState_state]
    by_cases hqc : q = c <;> simp [hqc, hrun]
  have hready : ∃ p ∈ ps, ((w.procs.setState c .blocked).proc p).state = .ready := by
    refine exists_ready h hd.mem (fun p hp => ?_) ?_ fun p hp hblocked => ?_
    · rw [hended, Procs.setState_state]
      by_cases hpc : p = c
      · simp [hpc]
      · have hother : (w.procs.proc p).state ≠ .running := fun hr => hpc (hd.others p hp hr)
        rw [if_neg hpc, Ended]
        cases hstate : (w.procs.proc p).state <;> simp_all
    · rw [Procs.setState_state, if_pos rfl]
    · have hchild : ∃ q, Taken w.procs q ∧ Child w.procs q p ∧ ¬ Ended w.procs q := by
        rw [Procs.setState_state] at hblocked
        by_cases hpc : p = c
        · rw [hpc]
          exact (hsafe c hc hblocks).1
        · rw [if_neg hpc] at hblocked
          exact (hw p ((h.mem p).1 hp) hblocked).1
      obtain ⟨q, hq, hqp, hlive⟩ := hchild
      exact ⟨q, (h.mem q).2 hq, hqp, by rwa [hended]⟩
  rw [blockCurrent, hd.blocked.schedule_eq]
  obtain ⟨p, hp, hpready⟩ := hready
  cases hfind : ps.find? fun p =>
      decide (((w.procs.setState c .blocked).proc p).state = .ready) with
  | none => exact absurd (by simpa using hpready) (List.find?_eq_none.1 hfind p hp)
  | some n => exact ⟨_, rfl⟩

/-- A safe wait gives the processor to another process. -/
theorem blocks_ok (h : Family ps w.procs) (hw : Wakeable w) (hc : w.procs.currentProcess = some c)
    (hsafe : call.Safe w) (hblocks : call.Blocks w.procs c) : ∃ x, waitStep w call = .ok x := by
  obtain ⟨t, ht⟩ := blockCurrent_ok h hw hc hsafe hblocks
  have hgoes : ∀ w₁ : WaitState, w₁.procs = t → ∃ x, w₁.resume = .ok x := by
    intro w₁ hw₁
    refine (resume_ok : Table ps w₁.procs → _) ?_
    obtain ⟨hd, hrun⟩ := h.table.handover_of hc
    rw [hw₁]
    exact ((Table.blockCurrent hd hrun).ok t ht).1
  have hget := Procs.getCurrentProcess_eq hc
  cases call with
  | waitForChild =>
    have happly : ProcCall.waitForChild.apply w.procs = .ok t := by
      rw [ProcCall.apply, waitForChild, hget, ok_bind, ht]
    show ∃ x, (ProcCall.waitForChild.apply w.procs >>= fun procs => (w.goOn procs).resume) = .ok x
    rw [happly, ok_bind]
    exact hgoes _ rfl
  | sendWait msg =>
    rw [waitStep, hget, ok_bind, h.table.sendWait_none hc hblocks, ht]
    exact hgoes _ rfl
  | handleWaitMessage msg =>
    have hnone : exitedChild w.procs c = none := hblocks
    rw [waitStep, hget, ok_bind, h.table.handleWaitMessage_none hc hblocks, ht]
    show ∃ x, (if (exitedChild w.procs c).isSome then _ else _) = _
    rw [hnone]
    exact hgoes _ rfl
  | _ => exact hblocks.elim

end Progress

/-- **No lost wake-up.**  In a run from `init_process` on whose calls are safe every
blocked process has a child that has not exited and has been told of those that
have, in every state; from there on a call leaves it so if and only if it is safe;
and a safe call that blocks its caller gives the processor to another process. -/
theorem wakeable_run {s : Procs} {tr : List (WaitCall × Option Reply)} {w : WaitState}
    (hheap : s.heap.pos ≤ heapSize) (hrun : safeLts.Run (WaitState.init s) tr w) :
    Wakeable w ∧ (∀ call r w', waitLts.step w (call, r) w' → (Wakeable w' ↔ call.Safe w)) ∧
      ∀ c call, w.procs.currentProcess = some c → call.Safe w → call.Blocks w.procs c →
        ∃ w' r, waitLts.step w (call, r) w' := by
  have hw : (∃ ps, Family ps w.procs) ∧ Wakeable w := by
    refine hrun.invariant (P := fun w => (∃ ps, Family ps w.procs) ∧ Wakeable w) ?_ ?_
    · intro w a w' hw hstep
      obtain ⟨⟨ps, hfamily⟩, hwake⟩ := hw
      obtain ⟨c, hc, -⟩ := hfamily.table.handover
      have happly := (waitStep_spec hfamily.table hc.current hstep.1).1
      obtain ⟨new, hfamily', -⟩ := hfamily.step hc.current happly
      exact ⟨⟨_, hfamily'⟩, (wakeable_step hfamily hwake hstep.1).2 hstep.2⟩
    · refine ⟨⟨_, family_init hheap⟩, ?_⟩
      intro p hp hblocked
      obtain ⟨i, hi, rfl⟩ := hp
      rw [Nat.lt_one_iff.1 hi] at hblocked
      simp [WaitState.init, initProcess, Procs.modify] at hblocked
  obtain ⟨⟨ps, hfamily⟩, hwake⟩ := hw
  refine ⟨hwake, fun call r w' hstep => wakeable_step hfamily hwake hstep, ?_⟩
  intro c call hc hsafe hblocks
  obtain ⟨⟨w', r⟩, hstep⟩ := blocks_ok hfamily hwake hc hsafe hblocks
  exact ⟨w', r, hstep⟩

/-- The lost wake-up: one of two children has exited, and `wait_for_child` blocks the
parent that has not been told. -/
theorem wait_misses_exit :
    ∃ w tr, waitLts.Run (WaitState.init (Procs.boot 0x40090000)) tr w ∧
      tr.map Prod.fst = [.sendFork Message.zero, .sendFork Message.zero, .schedule, .exitProcess 7,
        .schedule, .waitForChild] ∧
      (w.procs.proc (.slot 0)).state = .blocked ∧ (w.procs.proc (.slot 2)).state = .zombie ∧
      w.told (.slot 2) = false ∧ ¬ Wakeable w := by
  have hfork : waitLts.Run (WaitState.init (Procs.boot 0x40090000))
      [(.sendFork Message.zero, none)] ⟨_, _, _⟩ := Lts.Run.nil.snoc rfl
  have hforks : waitLts.Run (WaitState.init (Procs.boot 0x40090000))
      [(.sendFork Message.zero, none), (.sendFork Message.zero, none)] ⟨_, _, _⟩ := hfork.snoc rfl
  have hchild : waitLts.Run (WaitState.init (Procs.boot 0x40090000))
      [(.sendFork Message.zero, none), (.sendFork Message.zero, none), (.schedule, none)]
      ⟨_, _, _⟩ := hforks.snoc rfl
  have hexit : waitLts.Run (WaitState.init (Procs.boot 0x40090000))
      [(.sendFork Message.zero, none), (.sendFork Message.zero, none), (.schedule, none),
        (.exitProcess 7, none)] ⟨_, _, _⟩ := hchild.snoc rfl
  have hparent : waitLts.Run (WaitState.init (Procs.boot 0x40090000))
      [(.sendFork Message.zero, none), (.sendFork Message.zero, none), (.schedule, none),
        (.exitProcess 7, none), (.schedule, none)] ⟨_, _, _⟩ := hexit.snoc rfl
  have hrun : waitLts.Run (WaitState.init (Procs.boot 0x40090000))
      [(.sendFork Message.zero, none), (.sendFork Message.zero, none), (.schedule, none),
        (.exitProcess 7, none), (.schedule, none), (.waitForChild, none)] ⟨_, _, _⟩ :=
    hparent.snoc rfl
  refine ⟨_, _, hrun, rfl, rfl, rfl, rfl, ?_⟩
  intro hwake
  have htold := (hwake (.slot 0) ⟨0, by decide, rfl⟩ rfl).2 (.slot 2) ⟨2, by decide, rfl⟩ rfl rfl
  cases htold

/-- A parent that waits for its child, which then exits. -/
theorem wakeable_run_child :
    ∃ w, safeLts.Run (WaitState.init (Procs.boot 0x40090000))
        ([] ++ [(.sendFork Message.zero, none)] ++ [(.waitForChild, none)] ++
          [(.exitProcess 7, none)]) w ∧
      (w.procs.proc (.slot 0)).state = .running ∧ Wakeable w := by
  have hfork : safeLts.Run (WaitState.init (Procs.boot 0x40090000))
      [(.sendFork Message.zero, none)] ⟨_, _, _⟩ := Lts.Run.nil.snoc ⟨rfl, fun _ _ h => h.elim⟩
  have hwait : safeLts.Run (WaitState.init (Procs.boot 0x40090000))
      [(.sendFork Message.zero, none), (.waitForChild, none)] ⟨_, _, _⟩ :=
    hfork.snoc ⟨rfl, by
      intro c hc _
      rw [← (Option.some.inj hc : ProcPtr.slot 0 = c)]
      refine ⟨⟨.slot 1, ⟨1, by decide, rfl⟩, rfl, ?_⟩, ?_⟩
      · rintro (hzombie | hdead)
        · cases hzombie
        · cases hdead
      · rintro q ⟨i, hi, rfl⟩ - hzombie
        have hi : i < 2 := hi
        interval_cases i
        · cases hzombie
        · cases hzombie⟩
  have hrun : safeLts.Run (WaitState.init (Procs.boot 0x40090000))
      [(.sendFork Message.zero, none), (.waitForChild, none), (.exitProcess 7, none)] ⟨_, _, _⟩ :=
    hwait.snoc ⟨rfl, fun _ _ h => h.elim⟩
  exact ⟨_, hrun, rfl, (wakeable_run (Nat.zero_le _) hrun).1⟩

end OsArm
