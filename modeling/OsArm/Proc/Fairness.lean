import OsArm.Proc.Waiting

/-!
# Turns of the processes (`schedule`, `timer_handler`)

`schedule` goes through `process_list` from its head each time and takes the first ready process.
With forks and ticks only, every process but the current one is ready.

* `tickLts` — forks and ticks; `Ticking` is their invariant.
* `ticks` — consecutive calls of `schedule`.
* `ticks_current` — from the first tick on the first two processes of the list take turns.
* `FairTo` — with `k` ready processes, `k` ticks make each of them current.
* `fairTo_iff` — so it is if and only if no process but the current one stands behind the first two.
-/

namespace OsArm

/-! ## Ticks -/

/-- The calls that fork, and `schedule`. -/
def tickLts : Lts Procs (ProcCall × Option ProcPtr) :=
  procLts.only fun _ a _ => a.1.forks = true ∨ a.1 = .schedule

/-- Consecutive calls of `schedule`. -/
def ticks : Nat → Procs → Except Halt Procs
  | 0, s => .ok s
  | n + 1, s => ticks n s >>= schedule

/-- How many processes of the list are ready. -/
def readyCount (ps : List ProcPtr) (s : Procs) : Nat :=
  ps.countP fun p => decide ((s.proc p).state = .ready)

/-- **No ready process is passed over**: each becomes current within as many ticks as there are
ready processes. -/
def FairTo (ps : List ProcPtr) (s : Procs) : Prop :=
  ∀ p ∈ ps, (s.proc p).state = .ready → ∃ j, 0 < j ∧ j ≤ readyCount ps s ∧
    ∃ t, ticks j s = .ok t ∧ t.currentProcess = some p

/-- The table with the current process, all others being ready. -/
structure Ticking (ps : List ProcPtr) (c : ProcPtr) (s : Procs) : Prop where
  table : Table ps s
  current : s.currentProcess = some c
  others : ∀ p ∈ ps, p ≠ c → (s.proc p).state = .ready

namespace Ticking

variable {ps : List ProcPtr} {a b c p : ProcPtr} {s t : Procs}

theorem mem (h : Ticking ps c s) : c ∈ ps := (h.table.handover_of h.current).1.mem

theorem ready_iff (h : Ticking ps c s) (hp : p ∈ ps) : (s.proc p).state = .ready ↔ p ≠ c := by
  refine ⟨?_, h.others p hp⟩
  rintro hready rfl
  rw [(h.table.handover_of h.current).2] at hready
  cases hready

/-- **One tick**: the first process of the list that is not current. -/
theorem tick (h : Ticking ps c s) {n : ProcPtr} (hn : ps.find? (· ≠ c) = some n) :
    ∃ t, schedule s = .ok t ∧ Ticking ps n t := by
  obtain ⟨hd, hrun⟩ := h.table.handover_of h.current
  have hnps : n ∈ ps := List.mem_of_find?_eq_some hn
  have hnc : n ≠ c := by simpa using List.find?_some hn
  have hfind : ps.find? (fun p => decide ((s.proc p).state = .ready)) = some n := by
    obtain ⟨-, as, bs, rfl, hbefore⟩ := List.find?_eq_some_iff_append.1 hn
    refine List.find?_eq_some_iff_append.2
      ⟨decide_eq_true (h.others n hnps hnc), as, bs, rfl, fun q hq => ?_⟩
    have hqc : q = c := by simpa using hbefore q hq
    simp [hqc, hrun]
  have hschedule : schedule s = .ok (switchTo s c n) := by
    rw [hd.schedule_eq, hfind]
  refine ⟨_, hschedule, ?_⟩
  have htable := ((h.table.apply .schedule).1 _ hschedule).table
  refine ⟨htable, switchTo_currentProcess, ?_⟩
  intro q hq hqn
  rw [switchTo_state (Ne.symm hnc), if_neg hqn]
  by_cases hqc : q = c
  · rw [if_pos ⟨hqc, hrun⟩]
  · rw [if_neg fun hand => hqc hand.1]
    exact h.others q hq hqc

/-- The first of the list runs next, unless it is current. -/
theorem find_first {rest : List ProcPtr} (hne : c ≠ a) : (a :: rest).find? (· ≠ c) = some a := by
  rw [List.find?_cons, decide_eq_true (Ne.symm hne)]

/-- If it is, the second one does. -/
theorem find_second {rest : List ProcPtr} (hab : b ≠ a) :
    (a :: b :: rest).find? (· ≠ a) = some b := by
  rw [List.find?_cons, List.find?_cons, decide_eq_true hab]
  simp

/-- **The first two take turns**, whoever was current before. -/
theorem ticks_current {rest : List ProcPtr} (h : Ticking (a :: b :: rest) c s)
    (hab : b ≠ a) (n : Nat) :
    ∃ t d, ticks (n + 1) s = .ok t ∧ Ticking (a :: b :: rest) d t ∧ (d = a ∨ d = b) := by
  induction n with
  | zero =>
    have hfirst : ticks 1 s = schedule s := rfl
    rw [hfirst]
    by_cases hc : c = a
    · subst hc
      obtain ⟨t, ht, hnext⟩ := h.tick (find_second hab)
      exact ⟨t, b, ht, hnext, Or.inr rfl⟩
    · obtain ⟨t, ht, hnext⟩ := h.tick (find_first hc)
      exact ⟨t, a, ht, hnext, Or.inl rfl⟩
  | succ n ih =>
    obtain ⟨t, d, ht, hticking, hd⟩ := ih
    have hstep : ticks (n + 1 + 1) s = schedule t := by
      rw [ticks, ht]
      rfl
    rw [hstep]
    rcases hd with rfl | rfl
    · obtain ⟨u, hu, hnext⟩ := hticking.tick (find_second hab)
      exact ⟨u, b, hu, hnext, Or.inr rfl⟩
    · obtain ⟨u, hu, hnext⟩ := hticking.tick (find_first hab)
      exact ⟨u, a, hu, hnext, Or.inl rfl⟩

/-- The two ticks after which both of the first two have run. -/
theorem two_ticks {rest : List ProcPtr} (h : Ticking (a :: b :: rest) c s)
    (hab : b ≠ a) (hc : c ≠ a) :
    ∃ t u, ticks 1 s = .ok t ∧ t.currentProcess = some a ∧ ticks 2 s = .ok u ∧
      u.currentProcess = some b := by
  obtain ⟨t, ht, hfirst⟩ := h.tick (find_first hc)
  obtain ⟨u, hu, hsecond⟩ := hfirst.tick (find_second hab)
  have hone : ticks 1 s = .ok t := ht
  have htwo : ticks 2 s = .ok u := by
    rw [ticks, hone]
    exact hu
  exact ⟨t, u, hone, hfirst.current, htwo, hsecond.current⟩

/-- **Who is passed over**: everyone behind the first two. -/
theorem fair_iff (h : Ticking ps c s) : FairTo ps s ↔ ∀ p ∈ ps.drop 2, p = c := by
  have hnodup := h.table.listed.linked.nodup
  match ps, h, hnodup with
  | [], h, _ => exact absurd h.mem List.not_mem_nil
  | [a], h, _ =>
    refine iff_of_true (fun p hp hready => ?_) fun p hp => (by cases hp)
    have hc := List.mem_singleton.1 h.mem
    exact absurd ((List.mem_singleton.1 hp).trans hc.symm) ((h.ready_iff hp).1 hready)
  | a :: b :: rest, h, hnodup =>
    obtain ⟨hnota, hnodup⟩ := List.nodup_cons.1 hnodup
    obtain ⟨hnotb, -⟩ := List.nodup_cons.1 hnodup
    have hab : b ≠ a := fun heq => hnota (heq ▸ List.mem_cons_self)
    rw [show (a :: b :: rest).drop 2 = rest from rfl]
    constructor
    · intro hfair p hp
      by_contra hpc
      have hpps : p ∈ a :: b :: rest := List.mem_cons_of_mem a (List.mem_cons_of_mem b hp)
      obtain ⟨j, hj, -, t, ht, hcur⟩ := hfair p hpps (h.others p hpps hpc)
      obtain ⟨n, rfl⟩ : ∃ n, j = n + 1 := ⟨j - 1, by omega⟩
      obtain ⟨u, d, hu, hticking, hd⟩ := h.ticks_current hab n
      rw [ht] at hu
      rw [Except.ok.inj hu, hticking.current, Option.some.injEq] at hcur
      subst hcur
      rcases hd with rfl | rfl
      · exact hnota (List.mem_cons_of_mem b hp)
      · exact hnotb hp
    · intro hrest p hp hready
      have hpc := (h.ready_iff hp).1 hready
      by_cases hc : c = a
      · -- the first is current, so `p` is the second
        have hpb : p = b := by
          rcases List.mem_cons.1 hp with rfl | hp
          · exact absurd hc.symm hpc
          · rcases List.mem_cons.1 hp with rfl | hp
            · rfl
            · exact absurd (hrest p hp) hpc
        subst hpb hc
        obtain ⟨t, ht, hnext⟩ := h.tick (find_second hab)
        refine ⟨1, Nat.one_pos, List.countP_pos_iff.2 ⟨p, hp, by simp [hready]⟩, t,
          ht, hnext.current⟩
      · obtain ⟨t, u, ht, htcur, hu, hucur⟩ := h.two_ticks hab hc
        have hcount : 0 < readyCount (a :: b :: rest) s :=
          List.countP_pos_iff.2 ⟨p, hp, by simp [hready]⟩
        rcases List.mem_cons.1 hp with rfl | hp
        · exact ⟨1, Nat.one_pos, hcount, t, ht, htcur⟩
        · rcases List.mem_cons.1 hp with rfl | hp
          · have ha := (h.ready_iff (List.mem_cons_self)).2 (Ne.symm hc)
            refine ⟨2, Nat.two_pos, ?_, u, hu, hucur⟩
            simp [readyCount, ha, hready]
          · exact absurd (hrest p hp) hpc

end Ticking

/-! ## Runs of forks and ticks -/

section Runs

variable {ps : List ProcPtr} {c p : ProcPtr} {s t : Procs}

/-- **One step** of forks and ticks. -/
theorem Ticking.step {a : ProcCall × Option ProcPtr} (h : Ticking ps c s)
    (hstep : tickLts.step s a t) :
    ∃ d, Ticking ((a.1.creates s).toList ++ ps) d t := by
  obtain ⟨⟨ht, -⟩, hkind⟩ := hstep
  have htable := ((h.table.apply a.1).1 t ht).table
  rcases hkind with hforks | hschedule
  · have hmem := (h.table.handover_of h.current).1.mem
    have hfork := forked_of_apply h.current (h.table.slot_fresh hmem) hforks ht
    refine ⟨c, htable, hfork.current.trans h.current, ?_⟩
    intro p hp hpc
    by_cases hp' : p = .slot s.processCount
    · rw [hp']
      exact hfork.state
    · rcases List.mem_append.1 hp with hp | hp
      · obtain ⟨call, created⟩ := a
        cases call with
        | createProcess | sendFork msg | handleForkMessage msg =>
          exact absurd (List.mem_singleton.1 hp) hp'
        | _ => cases hforks
      · rw [hfork.others p hp']
        exact h.others p hp hpc
  · obtain ⟨call, created⟩ := a
    cases hschedule
    obtain ⟨hd, hrun⟩ := h.table.handover_of h.current
    obtain ⟨n, hn, hready, rfl⟩ := hd.schedule_ok ht
    have hnc := (h.ready_iff hn).1 hready
    refine ⟨n, htable, switchTo_currentProcess, ?_⟩
    intro p hp hpn
    rw [switchTo_state (Ne.symm hnc), if_neg hpn]
    by_cases hpc : p = c
    · rw [if_pos ⟨hpc, hrun⟩]
    · rw [if_neg fun hand => hpc hand.1]
      exact h.others p hp hpc

theorem Ticking.run {tr : List (ProcCall × Option ProcPtr)} (h : Ticking ps c s)
    (hrun : tickLts.Run s tr t) : ∃ d, Ticking ((tr.filterMap (·.2)).reverse ++ ps) d t := by
  induction hrun with
  | nil => exact ⟨c, h⟩
  | @snoc tr t u a _ hstep ih =>
    obtain ⟨d, hticking⟩ := ih
    obtain ⟨e, hnext⟩ := hticking.step hstep
    refine ⟨e, ?_⟩
    rw [← hstep.1.2, ← List.append_assoc] at hnext
    rw [List.filterMap_append, List.reverse_append]
    cases hnew : a.2 <;> simpa [hnew] using hnext

theorem ticking_init (hheap : s.heap.pos ≤ heapSize) : Ticking [.slot 0] (.slot 0)
    (initProcess s) :=
  ⟨table_init hheap, rfl, fun _ hp hne => absurd (List.mem_singleton.1 hp) hne⟩

/-- **Fairness of the scheduler.**  In every state that forks and ticks reach from `init_process`
on, as many ticks as there are ready processes make each of them current if and only if no process
but the current one stands behind the first two of `process_list`. -/
theorem fairTo_iff {tr : List (ProcCall × Option ProcPtr)} (hheap : s.heap.pos ≤ heapSize)
    (hrun : tickLts.Run (initProcess s) tr t) :
    Linked (fun p => (t.proc p).next) t.processList (created tr) ∧
      (FairTo (created tr) t ↔ ∀ p ∈ (created tr).drop 2, t.currentProcess = some p) := by
  obtain ⟨c, hticking⟩ := (ticking_init hheap).run hrun
  rw [← created_eq] at hticking
  refine ⟨hticking.table.listed.linked, hticking.fair_iff.trans ?_⟩
  rw [hticking.current]
  simp only [Option.some.injEq, eq_comm]

/-- With one child, the scheduler is fair. -/
theorem fairTo_iff_child : ∃ t, tickLts.Run (initProcess (Procs.boot 0))
    [(.sendFork Message.zero, some (.slot 1))] t ∧ FairTo [.slot 1, .slot 0] t := by
  have hrun := Lts.Run.snoc (M := tickLts) (a := (.sendFork Message.zero, some (.slot 1)))
    (.nil (s := initProcess (Procs.boot 0))) ⟨⟨rfl, rfl⟩, Or.inl rfl⟩
  refine ⟨_, hrun, (fairTo_iff (Nat.zero_le _) hrun).2.2 fun p hp => ?_⟩
  cases hp

/-- **With two children, the parent is passed over** once the second child is current: it is ready,
one of two, and neither of two ticks makes it current. -/
theorem parent_passed_over : ∃ t, tickLts.Run (initProcess (Procs.boot 0))
      [(.sendFork Message.zero, some (.slot 1)), (.sendFork Message.zero, some (.slot 2)),
        (.schedule, none)] t ∧
    t.currentProcess = some (.slot 2) ∧ (t.proc (.slot 0)).state = .ready ∧
    ¬ FairTo [.slot 2, .slot 1, .slot 0] t := by
  have hone := Lts.Run.snoc (M := tickLts) (a := (.sendFork Message.zero, some (.slot 1)))
    (.nil (s := initProcess (Procs.boot 0))) ⟨⟨rfl, rfl⟩, Or.inl rfl⟩
  have htwo := hone.snoc (a := (.sendFork Message.zero, some (.slot 2))) ⟨⟨rfl, rfl⟩, Or.inl rfl⟩
  have hrun := htwo.snoc (a := (.schedule, none)) ⟨⟨rfl, rfl⟩, Or.inr rfl⟩
  refine ⟨_, hrun, rfl, rfl, ?_⟩
  intro hfair
  obtain ⟨c, hticking⟩ := (ticking_init (Nat.zero_le _)).run hrun
  have hc := Option.some.inj (hticking.current.symm.trans rfl : some c = some (.slot 2))
  have hall := hticking.fair_iff.1 hfair (.slot 0) (List.mem_singleton.2 rfl)
  rw [hc] at hall
  cases hall

end Runs

end OsArm
