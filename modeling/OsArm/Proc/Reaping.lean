import OsArm.Proc.Waiting

/-!
# Reaping

What a wait that returns 0 reports, on both paths.

* `Reaped` — a wait that returns 0 reports a child of its caller that has exited, that
  no wait has returned before and that is dead now; `WaitCall.Reaps` — a
  `handle_wait_message` that finds an exited child when it is called.
* `Reckoned` — the children that some wait has returned are the dead ones.
* `reaped_run` — a wait reports as it should if and only if it is such a call; and as
  many of them as there are exited children report them all.
-/

namespace OsArm

/-- The wait that has returned `reply` reports an exited child of its caller that no
wait has returned before, and the child is `PROC_DEAD`. -/
def Reaped (w w' : WaitState) (reply : Reply) : Prop :=
  ∃ q, Taken w'.procs q ∧ Child w'.procs q reply.caller ∧ w.told q = false ∧
    (w'.procs.proc q).state = .dead ∧ reply.msg.pid = (w'.procs.proc q).pid ∧
    reply.msg.status = (w'.procs.proc q).exitStatus

/-- The call is `handle_wait_message`, and its caller has an exited child. -/
def WaitCall.Reaps (w : WaitState) : WaitCall → Prop
  | handleWaitMessage _ => ∃ c q, w.procs.currentProcess = some c ∧ Taken w.procs q ∧
      Child w.procs q c ∧ (w.procs.proc q).state = .zombie
  | _ => False

/-- The runs in which every wait that returns 0 is such a call. -/
def reapLts : Lts WaitState (WaitCall × Option Reply) where
  step w a w' := waitLts.step w a w' ∧ ∀ reply, a.2 = some reply → reply.ret = 0 → a.1.Reaps w

/-- The children that some wait has returned are the dead ones. -/
structure Reckoned (ps : List ProcPtr) (w : WaitState) : Prop where
  family : Family ps w.procs
  told_iff : ∀ q, w.told q = true ↔ q ∈ ps ∧ (w.procs.proc q).state = .dead

section Step

variable {ps : List ProcPtr} {c : ProcPtr} {w w' : WaitState} {call : WaitCall} {reply : Reply}

theorem reckoned_init {s : Procs} (hheap : s.heap.pos ≤ heapSize) :
    Reckoned [.slot 0] (WaitState.init s) := by
  refine ⟨family_init hheap, fun q => ⟨fun h => (nomatch h), ?_⟩⟩
  intro h
  have hstate := h.2
  rw [List.mem_singleton.1 h.1] at hstate
  simp [WaitState.init, initProcess, Procs.modify] at hstate

/-- The exited child that the loop finds makes the call one that reaps. -/
theorem Family.reaps_iff (h : Family ps w.procs) (hc : w.procs.currentProcess = some c)
    (msg : Message) :
    (WaitCall.handleWaitMessage msg).Reaps w ↔ ∃ q, exitedChild w.procs c = some q := by
  constructor
  · rintro ⟨d, q, hd, hq, hchild, hzombie⟩
    rw [hc] at hd
    cases hd
    cases hfound : exitedChild w.procs c with
    | none => exact absurd hzombie (h.table.exitedChild_none hfound q ((h.mem q).2 hq) hchild)
    | some q => exact ⟨q, rfl⟩
  · rintro ⟨q, hq⟩
    obtain ⟨hmem, hchild, hzombie⟩ := h.table.exitedChild_some hq
    exact ⟨c, q, hc, (h.mem q).1 hmem, hchild, hzombie⟩

/-- A child that a wait takes away is one that its loop has found. -/
theorem WaitCall.reaped_some {s : Procs} {q : ProcPtr} (h : call.reaped s c = some q) :
    ∃ msg, call = .handleWaitMessage msg ∧ exitedChild s c = some q := by
  cases call with
  | handleWaitMessage msg => exact ⟨msg, rfl, h⟩
  | _ => cases h

/-- A process is dead after a call if it was, or if the call takes it away. -/
theorem Family.dead_iff (h : Family ps w.procs) {new : List ProcPtr} {t : Procs}
    (hturns : Turns ps c (call.Blocks w.procs c) call.Exits (call.reaped w.procs c) w.procs t)
    (hnew : ∀ p ∈ new, p ∉ ps ∧ (t.proc p).state = .ready ∧
      (t.proc p).parentPid = (w.procs.proc c).pid) (q : ProcPtr) :
    q ∈ new ++ ps ∧ (t.proc q).state = .dead ↔
      q ∈ ps ∧ (w.procs.proc q).state = .dead ∨ call.reaped w.procs c = some q := by
  have hreaped : call.reaped w.procs c = some q → q ∈ ps := by
    intro hsome
    obtain ⟨msg, -, hfound⟩ := WaitCall.reaped_some hsome
    exact (h.table.exitedChild_some hfound).1
  rw [List.mem_append]
  constructor
  · rintro ⟨hq | hq, hdead⟩
    · rw [(hnew q hq).2.1] at hdead
      cases hdead
    · exact ((hturns.dead q hq).1 hdead).imp_left fun hold => ⟨hq, hold⟩
  · rintro (⟨hq, hdead⟩ | hsome)
    · exact ⟨Or.inr hq, (hturns.dead q hq).2 (Or.inl hdead)⟩
    · exact ⟨Or.inr (hreaped hsome), (hturns.dead q (hreaped hsome)).2 (Or.inr hsome)⟩

/-- **One wait** that returns 0 reports as it should if and only if the call is a
`handle_wait_message` that finds an exited child. -/
theorem Reckoned.reaped_iff (h : Reckoned ps w) (hstep : waitStep w call = .ok (w', some reply)) :
    Reaped w w' reply ↔ call.Reaps w := by
  obtain ⟨c, hc, hrun⟩ := h.family.table.handover
  obtain ⟨happly, hcase⟩ := waitStep_spec h.family.table hc.current hstep
  obtain ⟨new, hfamily, -, hnew⟩ := h.family.step hc.current happly
  have hturns := turns_of_apply h.family.table hc.current happly
  constructor
  · rintro ⟨q, hq, -, huntold, hdead, -⟩
    rcases (h.family.dead_iff hturns hnew q).1 ⟨(hfamily.mem q).2 hq, hdead⟩ with hold | hsome
    · rw [(h.told_iff q).2 hold] at huntold
      cases huntold
    · obtain ⟨msg, rfl, hfound⟩ := WaitCall.reaped_some hsome
      exact (h.family.reaps_iff hc.current msg).2 ⟨q, hfound⟩
  · intro hreaps
    cases call with
    | handleWaitMessage msg =>
      obtain ⟨q, hfound⟩ := (h.family.reaps_iff hc.current msg).1 hreaps
      obtain ⟨hq, hchild, hzombie⟩ := h.family.table.exitedChild_some hfound
      have hqc : c ≠ q := by
        rintro rfl
        rw [hrun] at hzombie
        cases hzombie
      obtain ⟨hpid, hparent, hstatus⟩ := h.family.fields hc.current happly hq
      have huntold : w.told q = false := by
        rw [← Bool.not_eq_true, h.told_iff, hzombie]
        exact fun hold => nomatch hold.2
      have hdead := (h.family.dead_iff hturns hnew q).2 (Or.inr hfound)
      have htaken := (hfamily.mem q).1 hdead.1
      have hparent' : Child w'.procs q c := by
        rw [Child, hparent, (h.family.fields hc.current happly hc.mem).1]
        exact hchild
      obtain ⟨q', r, hfound', hreply, hr, -⟩ | ⟨hnot, -⟩ := hcase
      · rw [hfound] at hfound'
        cases hfound'
        cases hr
        cases hreply
        exact ⟨q, htaken, hparent', huntold, hdead.2, hpid.symm, (hstatus hqc).symm⟩
      · exact absurd (Found.handleWait msg) (hnot q _ hfound)
    | _ => exact hreaps.elim

/-- A process that goes on tells nobody, unless its wait returns 0. -/
theorem Resumes.told_eq {n : ProcPtr} {w₁ : WaitState} {r : Option Reply} (h : Table ps w₁.procs)
    (hresumes : Resumes w₁ n w' r) (hret : ∀ reply, r = some reply → reply.ret ≠ 0) :
    w'.told = w₁.told := by
  cases hresumes with
  | quiet _ => rfl
  | sendWait msg out ret _ hout =>
    rw [sendWaitResumed, (h.findZombie_eq n).1] at hout
    cases hfound : exitedChild w₁.procs n with
    | none =>
      funext q
      simp [WaitState.finish, WaitState.tell]
    | some q =>
      rw [hfound] at hout
      cases hout
      exact absurd rfl (hret _ rfl)
  | handleWait msg _ => rfl

/-- **One step** of the runs in question keeps the reckoning. -/
theorem Reckoned.step (h : Reckoned ps w) {a : WaitCall × Option Reply}
    (hstep : reapLts.step w a w') : ∃ new, Reckoned (new ++ ps) w' := by
  obtain ⟨call, r⟩ := a
  obtain ⟨hstep, hzero⟩ := hstep
  obtain ⟨c, hc, -⟩ := h.family.table.handover
  obtain ⟨happly, hcase⟩ := waitStep_spec h.family.table hc.current hstep
  obtain ⟨new, hfamily, -, hnew⟩ := h.family.step hc.current happly
  have hturns := turns_of_apply h.family.table hc.current happly
  refine ⟨new, hfamily, ?_⟩
  intro q
  rw [h.family.dead_iff hturns hnew q, ← h.told_iff]
  obtain ⟨q', reply, hfound, hreply, rfl, htold⟩ | ⟨hnot, n, hn, w₁, htold, hprocs, hresumes⟩ :=
    hcase
  · have hreaps : call.Reaps w := by
      refine hzero reply rfl ?_
      cases hreply <;> rfl
    cases hreply with
    | sendWait msg => exact hreaps.elim
    | handleWait msg =>
      show w'.told q = true ↔ w.told q = true ∨ exitedChild w.procs c = some q
      rw [htold, hfound]
      simp [WaitState.tell]
  · have hnone : ∀ msg q', call = .handleWaitMessage msg → exitedChild w.procs c ≠ some q' := by
      rintro msg q' rfl hfound
      exact hnot q' _ hfound (.handleWait msg)
    have hquiet : ¬ call.Reaps w := by
      intro hreaps
      cases call with
      | handleWaitMessage msg =>
        obtain ⟨q', hfound⟩ := (h.family.reaps_iff hc.current msg).1 hreaps
        exact hnone msg q' rfl hfound
      | _ => exact hreaps.elim
    have htable : Table (new ++ ps) w₁.procs := by
      rw [hprocs]
      exact hfamily.table
    have htold' := hresumes.told_eq htable fun reply hr hret => hquiet (hzero reply hr hret)
    have hreaped : call.reaped w.procs c ≠ some q := by
      intro hsome
      obtain ⟨msg, hcall, hfound⟩ := WaitCall.reaped_some hsome
      exact hnone msg q hcall hfound
    rw [htold', htold, or_iff_left hreaped]

end Step

/-! ## As many waits as exited children -/

/-- The wait has returned 0 to `c` with the number and the exit status of `q`. -/
def Reports (s : Procs) (c q : ProcPtr) (reply : Reply) : Prop :=
  reply.caller = c ∧ reply.ret = 0 ∧ reply.msg.pid = (s.proc q).pid ∧
    reply.msg.status = (s.proc q).exitStatus

section Waits

variable {ps : List ProcPtr} {c q : ProcPtr} {w : WaitState}

/-- `handle_wait_message` when there is an exited child. -/
theorem Family.handleWait_step (h : Family ps w.procs) (hc : w.procs.currentProcess = some c)
    (hfound : exitedChild w.procs c = some q) (msg : Message) :
    ∃ reply, reapLts.step w (.handleWaitMessage msg, some reply)
        ((w.tell (some q)).goOn (w.procs.setState q .dead)) ∧ Reports w.procs c q reply := by
  refine ⟨⟨c, .handleWait, { msg with
    status := (w.procs.proc q).exitStatus, pid := (w.procs.proc q).pid }, 0⟩, ⟨?_, ?_⟩, ?_⟩
  · show waitStep w (.handleWaitMessage msg) = _
    rw [waitStep, Procs.getCurrentProcess_eq hc, ok_bind, h.table.handleWaitMessage_some hc hfound,
      ok_bind, hfound]
    rfl
  · intro _ _ _
    exact (h.reaps_iff hc msg).2 ⟨q, hfound⟩
  · exact ⟨rfl, rfl, rfl, rfl⟩

/-- **As many waits** as there are exited children report them all. -/
theorem Reckoned.waits (msgs : List Message) (h : Reckoned ps w)
    (hc : w.procs.currentProcess = some c) {zs : List ProcPtr} (hnodup : zs.Nodup)
    (hzs : ∀ q, q ∈ zs ↔
      Taken w.procs q ∧ Child w.procs q c ∧ (w.procs.proc q).state = .zombie)
    (hlength : msgs.length = zs.length) :
    ∃ replies w', reapLts.Run w ((msgs.map .handleWaitMessage).zip (replies.map some)) w' ∧
      ∃ zs', zs'.Perm zs ∧ List.Forall₂ (Reports w.procs c) zs' replies := by
  induction msgs generalizing ps w zs with
  | nil =>
    rw [List.eq_nil_of_length_eq_zero hlength.symm]
    exact ⟨[], w, .nil, [], .nil, .nil⟩
  | cons msg msgs ih =>
    have hsome : ∃ q, exitedChild w.procs c = some q := by
      have hpos : 0 < zs.length := hlength ▸ Nat.succ_pos _
      obtain ⟨q, hq⟩ := List.exists_mem_of_length_pos hpos
      obtain ⟨htaken, hchild, hzombie⟩ := (hzs q).1 hq
      exact (h.family.reaps_iff hc msg).1 ⟨c, q, hc, htaken, hchild, hzombie⟩
    obtain ⟨q, hfound⟩ := hsome
    obtain ⟨hq, hchild, hzombie⟩ := h.family.table.exitedChild_some hfound
    have hmem : q ∈ zs := (hzs q).2 ⟨(h.family.mem q).1 hq, hchild, hzombie⟩
    obtain ⟨reply, hstep, hreports⟩ := h.family.handleWait_step hc hfound msg
    obtain ⟨new, hnext⟩ := h.step hstep
    have hpid : ∀ p, ((w.procs.setState q .dead).proc p).pid = (w.procs.proc p).pid :=
      fun p => Procs.modify_field (·.pid) fun _ => rfl
    have hparent : ∀ p, ((w.procs.setState q .dead).proc p).parentPid =
        (w.procs.proc p).parentPid :=
      fun p => Procs.modify_field (·.parentPid) fun _ => rfl
    have hstatus : ∀ p, ((w.procs.setState q .dead).proc p).exitStatus =
        (w.procs.proc p).exitStatus :=
      fun p => Procs.modify_field (·.exitStatus) fun _ => rfl
    have hzs' : ∀ p, p ∈ zs.erase q ↔ Taken (w.procs.setState q .dead) p ∧
        Child (w.procs.setState q .dead) p c ∧
        ((w.procs.setState q .dead).proc p).state = .zombie := by
      intro p
      rw [hnodup.mem_erase_iff, hzs, Child, Child, hparent, hpid, Procs.setState_state]
      by_cases hpq : p = q
      · simp [hpq]
      · simp only [hpq, ne_eq, not_false_eq_true, true_and, if_false]
        rfl
    obtain ⟨replies, w', hrun, zs', hperm, hall⟩ :=
      ih hnext hc (hnodup.erase q) hzs' (by
        rw [List.length_erase_of_mem hmem]
        simp only [List.length_cons] at hlength
        omega)
    refine ⟨reply :: replies, w', .cons hstep hrun, q :: zs', ?_, ?_⟩
    · exact (hperm.cons q).trans (List.perm_cons_erase hmem).symm
    · refine .cons hreports (hall.imp fun p r hr => ?_)
      obtain ⟨hcaller, hret, hmsg, hexit⟩ := hr
      exact ⟨hcaller, hret, hmsg.trans (hpid p), hexit.trans (hstatus p)⟩

end Waits

/-- **Reaping.**  In a run from `init_process` in which every wait that returns 0 is a
`handle_wait_message` whose caller has an exited child when it calls, a wait that returns
0 at the next step reports an exited child that no wait has returned before, which is
dead then, if and only if it is such a call as well.  So all waits of such a run report
as they should; and as many calls of `handle_wait_message` as there are exited children
of the caller report all of them. -/
theorem reaped_run {s : Procs} {tr : List (WaitCall × Option Reply)} {w : WaitState}
    (hheap : s.heap.pos ≤ heapSize) (hrun : reapLts.Run (WaitState.init s) tr w) :
    (∀ call reply w', waitLts.step w (call, some reply) w' → reply.ret = 0 →
      (Reaped w w' reply ↔ call.Reaps w)) ∧
    ∀ c (msgs : List Message) zs, w.procs.currentProcess = some c → zs.Nodup →
      (∀ q, q ∈ zs ↔ Taken w.procs q ∧ Child w.procs q c ∧ (w.procs.proc q).state = .zombie) →
      msgs.length = zs.length →
      ∃ replies w', reapLts.Run w ((msgs.map .handleWaitMessage).zip (replies.map some)) w' ∧
        ∃ zs', zs'.Perm zs ∧ List.Forall₂ (Reports w.procs c) zs' replies := by
  have hw : ∃ ps, Reckoned ps w := by
    refine hrun.invariant (P := fun w => ∃ ps, Reckoned ps w) ?_ ⟨_, reckoned_init hheap⟩
    rintro w a w' ⟨ps, hw⟩ hstep
    obtain ⟨new, hw'⟩ := hw.step hstep
    exact ⟨_, hw'⟩
  obtain ⟨ps, hw⟩ := hw
  refine ⟨fun call reply w' hstep _ => hw.reaped_iff hstep, ?_⟩
  intro c msgs zs hc hnodup hzs hlength
  exact hw.waits msgs hc hnodup hzs hlength

/-- The child of the first process has exited with 7; two waits with `MSG_WAIT` both
return 0 with that status and without a number, and the child is still there. -/
theorem sendWait_reports_twice :
    ∃ tr w w' w'' r₁ r₂, waitLts.Run (WaitState.init (Procs.boot 0x40090000)) tr w ∧
      tr.map Prod.fst = [.sendFork Message.zero, .schedule, .exitProcess 7] ∧
      (w.procs.proc (.slot 1)).pid = 2 ∧
      waitLts.step w (.sendWait Message.zero, some r₁) w' ∧
      waitLts.step w' (.sendWait Message.zero, some r₂) w'' ∧
      r₁.ret = 0 ∧ r₁.msg.pid = 0 ∧ r₁.msg.status = 7 ∧ r₂.ret = 0 ∧ r₂.msg.status = 7 ∧
      (w''.procs.proc (.slot 1)).state = .zombie ∧
      ¬ Reaped w w' r₁ ∧ ¬ Reaped w' w'' r₂ := by
  have hfork : waitLts.Run (WaitState.init (Procs.boot 0x40090000))
      [(.sendFork Message.zero, none)] ⟨_, _, _⟩ := Lts.Run.nil.snoc rfl
  have hchild : waitLts.Run (WaitState.init (Procs.boot 0x40090000))
      [(.sendFork Message.zero, none), (.schedule, none)] ⟨_, _, _⟩ := hfork.snoc rfl
  have hexit : waitLts.Run (WaitState.init (Procs.boot 0x40090000))
      [(.sendFork Message.zero, none), (.schedule, none), (.exitProcess 7, none)] ⟨_, _, _⟩ :=
    hchild.snoc rfl
  refine ⟨_, _, ⟨_, _, _⟩, ⟨_, _, _⟩, _, _, hexit, rfl, rfl, rfl, rfl, rfl, rfl, rfl, rfl, rfl, rfl,
    ?_, ?_⟩
  · rintro ⟨q, ⟨i, hi, rfl⟩, -, -, hdead, -⟩
    have hi : i < 2 := hi
    interval_cases i <;> cases hdead
  · rintro ⟨q, ⟨i, hi, rfl⟩, -, -, hdead, -⟩
    have hi : i < 2 := hi
    interval_cases i <;> cases hdead

/-- A parent that takes its exited child away with `handle_wait_message`. -/
theorem reaped_run_child :
    ∃ w w' reply, reapLts.Run (WaitState.init (Procs.boot 0x40090000))
        [(.sendFork Message.zero, none), (.schedule, none), (.exitProcess 7, none)] w ∧
      waitLts.step w (.handleWaitMessage Message.zero, some reply) w' ∧
      reply.ret = 0 ∧ reply.msg.pid = 2 ∧ reply.msg.status = 7 ∧ Reaped w w' reply := by
  have hfork : reapLts.Run (WaitState.init (Procs.boot 0x40090000))
      [(.sendFork Message.zero, none)] ⟨_, _, _⟩ := Lts.Run.nil.snoc ⟨rfl, fun _ h => nomatch h⟩
  have hchild : reapLts.Run (WaitState.init (Procs.boot 0x40090000))
      [(.sendFork Message.zero, none), (.schedule, none)] ⟨_, _, _⟩ :=
    hfork.snoc ⟨rfl, fun _ h => nomatch h⟩
  have hexit : reapLts.Run (WaitState.init (Procs.boot 0x40090000))
      [(.sendFork Message.zero, none), (.schedule, none), (.exitProcess 7, none)] ⟨_, _, _⟩ :=
    hchild.snoc ⟨rfl, fun _ h => nomatch h⟩
  refine ⟨_, ⟨_, _, _⟩, _, hexit, rfl, rfl, rfl, rfl, ?_⟩
  refine ((reaped_run (Nat.zero_le _) hexit).1 (.handleWaitMessage Message.zero) _ _ rfl rfl).2 ?_
  exact ⟨.slot 0, .slot 1, rfl, ⟨1, by decide, rfl⟩, rfl, rfl⟩

end OsArm
