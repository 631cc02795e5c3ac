import OsArm.Proc.Queues

/-!
# Blocking receives

`receive_message`, `queue_message` and the other calls of the process code in any order, with
what a `receive_message` that has given the processor away returns when its process runs again.

* `recvStep` — one call; the rest of `receive_message` behind `schedule` is `return -1`.
* `Delivers` — what a receive without `MSG_NONBLOCK` should do; `RecvInv` — what holds in every
  state.
* `receive_delivers_iff` — it does so in just the runs in which no process that gave the
  processor away in `receive_message` is switched to again.
-/

namespace OsArm

/-! ## The calls -/

/-- What a receive returns: the caller, the message structure it was called with, the structure
afterwards and the result. -/
structure RecvReply where
  caller : ProcPtr
  asked : Message
  msg : Message
  ret : Int

/-- The processes, and the receives that have given the processor away. -/
structure RecvState where
  procs : Procs
  waiting : ProcPtr → Option Message

/-- A call of the current process.  `process_create`, which clears a queue, is left out. -/
inductive RecvCall
  | receive (msg : Message)
  | queue (p : ProcPtr) (msg : Message)
  | other (call : ProcCall) (not_receive : ∀ msg, call ≠ .receiveMessage msg)
      (not_create : ∀ entry, call ≠ .processCreate entry)

/-- Without `MSG_NONBLOCK`. -/
def Blocking (msg : Message) : Prop := msg.flags &&& msgNonblock = 0

instance (msg : Message) : Decidable (Blocking msg) := inferInstanceAs (Decidable (_ = _))

/-- The receive of `c` finds its queue empty and gives the processor away. -/
def GivesAway (s : Procs) (c : ProcPtr) (msg : Message) : Prop :=
  (s.proc c).msgQueue.count = 0 ∧ Blocking msg

instance (s : Procs) (c : ProcPtr) (msg : Message) : Decidable (GivesAway s c msg) :=
  inferInstanceAs (Decidable (_ ∧ _))

namespace RecvState

/-- The current process goes on: behind `schedule`, `receive_message` returns -1. -/
def resume (w : RecvState) : Except Halt (RecvState × Option RecvReply) := do
  let c ← w.procs.getCurrentProcess
  match w.waiting c with
  | none => return (w, none)
  | some msg =>
    return ({ w with waiting := Function.update w.waiting c none }, some ⟨c, msg, msg, -1⟩)

/-- The receives that have given the processor away, up to the switch of this call. -/
def waitingAt (w : RecvState) : RecvCall → ProcPtr → Option Message
  | .receive msg =>
    match w.procs.currentProcess with
    | none => w.waiting
    | some c => if GivesAway w.procs c msg then Function.update w.waiting c
      (some msg) else w.waiting
  | _ => w.waiting

end RecvState

/-- One call, and what a receive returns at it. -/
def recvStep (w : RecvState) (call : RecvCall) : Except Halt (RecvState × Option RecvReply) :=
  match call with
  | .receive msg => do
    let c ← w.procs.getCurrentProcess
    let (procs, out, ret) ← receiveMessage w.procs msg
    if GivesAway w.procs c msg then
      RecvState.resume { procs := procs, waiting := Function.update w.waiting c (some msg) }
    else return ({ w with procs := procs }, some ⟨c, msg, out, ret⟩)
  | .queue p msg => return ({ w with procs := (queueMessage w.procs p msg).1 }, none)
  | .other call _ _ => do
    let procs ← call.apply w.procs
    RecvState.resume { w with procs := procs }

/-- The calls as a transition system; a label is a call with what a receive has returned at it. -/
def recvLts : Lts RecvState (RecvCall × Option RecvReply) where
  step w a w' := recvStep w a.1 = .ok (w', a.2)

/-! ## What a receive should do -/

/-- **A blocking receive returns only with a message.**  No process is made current again in a
receive while its queue is empty; and a receive without `MSG_NONBLOCK` that returns, returns 0
with the oldest message queued for its process, which is taken out. -/
structure Delivers (w : RecvState) (a : RecvCall × Option RecvReply) (w' : RecvState) : Prop where
  not_early : ∀ p, w.waitingAt a.1 p ≠ none → w'.procs.currentProcess = some p →
    pending w'.procs p ≠ []
  returns : ∀ r ∈ a.2, Blocking r.asked →
    r.ret = 0 ∧ pending w.procs r.caller = r.msg :: pending w'.procs r.caller

/-- No process that has given the processor away in a receive is switched to. -/
def NoneResumed (w : RecvState) (a : RecvCall × Option RecvReply) (w' : RecvState) : Prop :=
  ∀ p, w.waitingAt a.1 p ≠ none → w'.procs.currentProcess ≠ some p

/-- A receive without `MSG_NONBLOCK` is called with a message waiting. -/
def CalledWithMessage (w : RecvState) (a : RecvCall × Option RecvReply) (_w' : RecvState) : Prop :=
  ∀ msg c, a.1 = .receive msg → Blocking msg → w.procs.currentProcess = some c →
    pending w.procs c ≠ []

/-- What holds in every state: the queues are in order, the current process is in no receive,
and what waits is a receive without `MSG_NONBLOCK`. -/
structure RecvInv (w : RecvState) : Prop where
  queues : QueuesOk w.procs
  current : ∀ c, w.procs.currentProcess = some c → w.waiting c = none
  blocking : ∀ p msg, w.waiting p = some msg → Blocking msg

/-! ## One step -/

section Steps

variable {w w' : RecvState} {call : RecvCall} {r : Option RecvReply} {s t : Procs} {c : ProcPtr}
  {msg : Message}

theorem current_of_getCurrentProcess (h : s.getCurrentProcess = .ok c) :
    s.currentProcess = some c := by
  rw [Procs.getCurrentProcess] at h
  split at h
  · cases h
  · next p hp => rw [hp, Except.ok.inj h]

/-- What the current process finds when it goes on. -/
theorem RecvState.resume_ok (h : w.resume = .ok (w', r)) :
    ∃ c, w.procs.currentProcess = some c ∧
      (w.waiting c = none ∧ w' = w ∧ r = none ∨
        ∃ msg, w.waiting c = some msg ∧
          w' = { w with waiting := Function.update w.waiting c none } ∧
          r = some ⟨c, msg, msg, -1⟩) := by
  obtain ⟨c, hc, h⟩ := ok_of_bind h
  have hcur := current_of_getCurrentProcess hc
  refine ⟨c, hcur, ?_⟩
  cases hw : w.waiting c with
  | none =>
    rw [hw] at h
    cases h
    exact Or.inl ⟨rfl, rfl, rfl⟩
  | some msg =>
    rw [hw] at h
    cases h
    exact Or.inr ⟨msg, rfl, rfl, rfl⟩

/-- `queue_message` does not change the current process. -/
theorem queueMessage_current (s : Procs) (p : ProcPtr) (msg : Message) :
    (queueMessage s p msg).1.currentProcess = s.currentProcess := by
  rcases lt_or_ge (s.proc p).msgQueue.count maxMessages with hroom | hfull
  · rw [queueMessage_room hroom, clearBlocked]
    split <;> rfl
  · rw [queueMessage_full hfull]

/-- A queue is empty when no message waits. -/
theorem QueuesOk.pending_eq_nil (h : QueuesOk s) :
    pending s c = [] ↔ (s.proc c).msgQueue.count = 0 := by
  have hcount := (h.queue c).count_nonneg
  rw [pending, ← List.length_eq_zero_iff, length_pending]
  omega

/-- A receive that does not give the processor away. -/
theorem receiveMessage_at_once {out : Message} {ret : Int} (hq : QueuesOk s)
    (hcur : s.currentProcess = some c) (hno : ¬ GivesAway s c msg)
    (hr : receiveMessage s msg = .ok (t, out, ret)) :
    t.currentProcess = some c ∧
      (Blocking msg → ret = 0 ∧ pending s c = out :: pending t c) := by
  by_cases hempty : (s.proc c).msgQueue.count = 0
  · have hnonblock : ¬ Blocking msg := fun hb => hno ⟨hempty, hb⟩
    rw [receiveMessage, Procs.getCurrentProcess_eq hcur] at hr
    replace hr := ((if_pos hempty).trans (if_neg hnonblock)).symm.trans hr
    cases hr
    exact ⟨hcur, fun hb => absurd hb hnonblock⟩
  · rw [receiveMessage_some hcur hempty] at hr
    cases hr
    refine ⟨hcur, fun _ => ⟨rfl, ?_⟩⟩
    rw [pending_setQueue, Function.update_self]
    exact (dequeue_spec (hq.queue c) hempty).2

/-- A step that gives the processor away, or may do so, ends with the process that goes on. -/
structure Turn (w : RecvState) (call : RecvCall) (procs : Procs) : Prop where
  queues : QueuesOk procs
  pending : pending procs = pending w.procs
  blocking : ∀ p msg, w.waitingAt call p = some msg → Blocking msg

/-- **What a call does**: a receive that returns at once, a message that is queued, or a turn. -/
theorem recvStep_cases (hinv : RecvInv w) (h : recvStep w call = .ok (w', r)) :
    (∃ c msg, call = .receive msg ∧ w.procs.currentProcess = some c ∧ ¬ GivesAway w.procs c msg ∧
      ∃ procs out ret, receiveMessage w.procs msg = .ok (procs, out, ret) ∧
        w' = { w with procs := procs } ∧ r = some ⟨c, msg, out, ret⟩) ∨
    (∃ p msg, call = .queue p msg ∧ w' = { w with procs := (queueMessage w.procs p msg).1 } ∧
      r = none) ∨
    ∃ procs, Turn w call procs ∧
      RecvState.resume { procs := procs, waiting := w.waitingAt call } = .ok (w', r) := by
  cases call with
  | receive msg =>
    obtain ⟨c, hc, h⟩ := ok_of_bind h
    obtain ⟨⟨procs, out, ret⟩, hr, h⟩ := ok_of_bind h
    have hcur := current_of_getCurrentProcess hc
    dsimp only at h
    by_cases hgives : GivesAway w.procs c msg
    · rw [if_pos hgives] at h
      right
      right
      have hat : w.waitingAt (.receive msg) = Function.update w.waiting c (some msg) := by
        simp only [RecvState.waitingAt, hcur, if_pos hgives]
      obtain ⟨-, hqueue, -⟩ := receiveMessage_empty hcur hgives.1 hr
      refine ⟨procs, ⟨(receiveMessage_simulates hinv.queues hcur hr).2, ?_, ?_⟩, ?_⟩
      · funext q
        rw [OsArm.pending, hqueue, OsArm.pending]
      · intro p m hm
        rw [hat] at hm
        by_cases hp : p = c
        · subst hp
          rw [Function.update_self] at hm
          rw [← Option.some.inj hm]
          exact hgives.2
        · rw [Function.update_of_ne hp] at hm
          exact hinv.blocking p m hm
      · rw [hat]
        exact h
    · rw [if_neg hgives] at h
      cases h
      exact Or.inl ⟨c, msg, rfl, hcur, hgives, procs, out, ret, hr, rfl, rfl⟩
  | queue p msg =>
    cases h
    exact Or.inr (Or.inl ⟨p, msg, rfl, rfl, rfl⟩)
  | other call hreceive hcreate =>
    obtain ⟨procs, hcall, h⟩ := ok_of_bind h
    have hsame := SameQueues.of_apply hreceive hcreate hcall
    have hqueues := QueueStep.simulates hinv.queues (.quiet hsame)
    exact Or.inr (Or.inr ⟨procs, ⟨hqueues.2, hqueues.1, hinv.blocking⟩, h⟩)

/-- **One call** keeps the invariant. -/
theorem RecvInv.step (hinv : RecvInv w) (h : recvStep w call = .ok (w', r)) : RecvInv w' := by
  rcases recvStep_cases hinv h with ⟨c, msg, rfl, hcur, hno, procs, out, ret, hr, rfl, -⟩ |
    ⟨p, msg, rfl, rfl, -⟩ | ⟨procs, hturn, hresume⟩
  · refine ⟨(receiveMessage_simulates hinv.queues hcur hr).2, ?_, hinv.blocking⟩
    intro q hq
    have hsame := (receiveMessage_at_once hinv.queues hcur hno hr).1
    rw [← Option.some.inj (hsame.symm.trans hq)]
    exact hinv.current c hcur
  · refine ⟨(queueMessage_simulates hinv.queues p msg).2, ?_, hinv.blocking⟩
    intro q hq
    dsimp only at hq
    rw [queueMessage_current] at hq
    exact hinv.current q hq
  · obtain ⟨c, hc, ⟨hnone, rfl, -⟩ | ⟨msg, hsome, rfl, -⟩⟩ := RecvState.resume_ok hresume
    · refine ⟨hturn.queues, ?_, hturn.blocking⟩
      intro q hq
      rw [← Option.some.inj (hc.symm.trans hq)]
      exact hnone
    · refine ⟨hturn.queues, ?_, ?_⟩
      · intro q hq
        rw [← Option.some.inj (hc.symm.trans hq)]
        exact Function.update_self _ _ _
      · intro p m hm
        dsimp only at hm
        by_cases hp : p = c
        · subst hp
          rw [Function.update_self] at hm
          cases hm
        · rw [Function.update_of_ne hp] at hm
          exact hturn.blocking p m hm

/-- **In one step** a receive does what it should exactly when no process that has given the
processor away in a receive goes on. -/
theorem RecvInv.delivers_iff (hinv : RecvInv w) (h : recvStep w call = .ok (w', r)) :
    Delivers w (call, r) w' ↔ NoneResumed w (call, r) w' := by
  rcases recvStep_cases hinv h with ⟨c, msg, rfl, hcur, hno, procs, out, ret, hr, rfl, rfl⟩ |
    ⟨p, msg, rfl, rfl, rfl⟩ | ⟨procs, hturn, hresume⟩
  · obtain ⟨hsame, hreturns⟩ := receiveMessage_at_once hinv.queues hcur hno hr
    have hat : w.waitingAt (.receive msg) = w.waiting := by
      simp only [RecvState.waitingAt, hcur, if_neg hno]
    have hnone : NoneResumed w (.receive msg, some ⟨c, msg, out, ret⟩)
        { w with procs := procs } := by
      intro p hp hq
      dsimp only at hp hq
      rw [hat, ← Option.some.inj (hsame.symm.trans hq)] at hp
      exact hp (hinv.current c hcur)
    refine iff_of_true ⟨fun p hp hq => absurd hq (hnone p hp), ?_⟩ hnone
    intro r hr hb
    obtain rfl := Option.some.inj hr
    exact hreturns hb
  · have hnone : NoneResumed w (.queue p msg, none)
        { w with procs := (queueMessage w.procs p msg).1 } := by
      intro q hq hcur
      dsimp only at hcur
      rw [queueMessage_current] at hcur
      exact hq (hinv.current q hcur)
    exact iff_of_true ⟨fun q hq hcur => absurd hcur (hnone q hq), fun r hr => by cases hr⟩ hnone
  · obtain ⟨c, hc, ⟨hwait, rfl, rfl⟩ | ⟨msg, hsome, rfl, rfl⟩⟩ := RecvState.resume_ok hresume
    · have hnone : NoneResumed w (call, none) { procs := procs, waiting := w.waitingAt call } := by
        intro q hq hcur
        rw [← Option.some.inj (hc.symm.trans hcur)] at hq
        exact hq hwait
      exact iff_of_true ⟨fun q hq hcur => absurd hcur (hnone q hq), fun r hr => by cases hr⟩ hnone
    · refine iff_of_false (fun hdel => ?_) fun hnone => ?_
      · have hret : (-1 : Int) = 0 := (hdel.returns _ rfl (hturn.blocking c msg hsome)).1
        exact absurd hret (by decide)
      · refine hnone c ?_ hc
        dsimp only at hsome ⊢
        rw [hsome]
        exact Option.some_ne_none msg

/-- A receive that is called with a message waiting does not give the processor away. -/
theorem RecvInv.waitingAt_eq (hinv : RecvInv w) (hcalled : CalledWithMessage w (call, r) w') :
    w.waitingAt call = w.waiting := by
  cases call with
  | receive msg =>
    rw [RecvState.waitingAt]
    cases hcur : w.procs.currentProcess with
    | none => rfl
    | some c =>
      dsimp only
      refine if_neg ?_
      intro hgives
      exact hcalled msg c rfl hgives.2 hcur (hinv.queues.pending_eq_nil.2 hgives.1)
  | queue p msg => rfl
  | other call hreceive hcreate => rfl

/-- Then no receive is pending afterwards if none was before. -/
theorem RecvInv.step_called (hinv : RecvInv w) (hnone : ∀ p, w.waiting p = none)
    (h : recvStep w call = .ok (w', r)) (hcalled : CalledWithMessage w (call, r) w') :
    Delivers w (call, r) w' ∧ ∀ p, w'.waiting p = none := by
  have hat := hinv.waitingAt_eq hcalled
  refine ⟨(hinv.delivers_iff h).2 fun p hp => ?_, ?_⟩
  · dsimp only at hp
    rw [hat] at hp
    exact absurd (hnone p) hp
  · rcases recvStep_cases hinv h with ⟨c, msg, rfl, hcur, hno, procs, out, ret, hr, rfl, -⟩ |
      ⟨p, msg, rfl, rfl, -⟩ | ⟨procs, hturn, hresume⟩
    · exact hnone
    · exact hnone
    · rw [hat] at hresume
      obtain ⟨c, -, ⟨-, rfl, -⟩ | ⟨msg, hsome, -, -⟩⟩ := RecvState.resume_ok hresume
      · exact hnone
      · exact absurd ((hnone c).symm.trans hsome) (by simp)

end Steps

/-! ## Runs -/

/-- From zeroed queues, with no receive pending. -/
def RecvState.init (s : Procs) : RecvState where
  procs := s
  waiting := fun _ => none

theorem recvInv_init {s : Procs}
    (h : ∀ p, (s.proc p).msgQueue = MessageQueue.zero ∧ (s.proc p).msgBlocked = 0) :
    RecvInv (RecvState.init s) :=
  ⟨(queuesOk_zero h).1, fun _ _ => rfl, fun _ _ h => by cases h⟩

/-- **Blocking receives.**  In a run every receive without `MSG_NONBLOCK` returns only with the
oldest message, if and only if no process that has given the processor away in one is switched to
again, for all that it can return then is -1; in particular, when each is called with a message
waiting. -/
theorem receive_delivers_iff {s : Procs} {w : RecvState} {tr : List (RecvCall × Option RecvReply)}
    (h0 : ∀ p, (s.proc p).msgQueue = MessageQueue.zero ∧ (s.proc p).msgBlocked = 0) :
    ((recvLts.only Delivers).Run (RecvState.init s) tr w ↔
      (recvLts.only NoneResumed).Run (RecvState.init s) tr w) ∧
    ((recvLts.only CalledWithMessage).Run (RecvState.init s) tr w →
      (recvLts.only Delivers).Run (RecvState.init s) tr w ∧ ∀ p, w.waiting p = none) := by
  have hinit := recvInv_init h0
  refine ⟨⟨?_, ?_⟩, ?_⟩
  · intro h
    exact (h.only (I := RecvInv) (fun t a u hI hstep hC =>
      ⟨(hI.delivers_iff hstep).1 hC, hI.step hstep⟩) hinit).1
  · intro h
    exact (h.only (I := RecvInv) (fun t a u hI hstep hC =>
      ⟨(hI.delivers_iff hstep).2 hC, hI.step hstep⟩) hinit).1
  · intro h
    have hrun := h.only (I := fun w => RecvInv w ∧ ∀ p, w.waiting p = none)
      (D := Delivers) (fun t a u hI hstep hC => by
        obtain ⟨hdel, hnone⟩ := hI.1.step_called hI.2 hstep hC
        exact ⟨hdel, hI.1.step hstep, hnone⟩) ⟨hinit, fun _ => rfl⟩
    exact ⟨hrun.1, hrun.2.2⟩

/-- `schedule`. -/
def scheduleCall : RecvCall := .other .schedule (by simp) (by simp)

/-- `send_message` with `MSG_FORK`. -/
def forkCall : RecvCall := .other (.sendFork Message.zero) (by simp) (by simp)

/-- The first process receives while its queue is empty, its child runs and schedules, and the
receive returns -1 with the queue still empty. -/
theorem receive_returns_empty :
    ∃ w w', recvLts.Run (RecvState.init (initProcess (Procs.boot 0x40090000)))
        [(forkCall, none), (.receive Message.zero, none)] w ∧
      recvLts.step w (scheduleCall, some ⟨.slot 0, Message.zero, Message.zero, -1⟩) w' ∧
      w'.procs.currentProcess = some (.slot 0) ∧ pending w'.procs (.slot 0) = [] ∧
      ¬ Delivers w (scheduleCall, some ⟨.slot 0, Message.zero, Message.zero, -1⟩) w' := by
  have hfork : recvLts.Run (RecvState.init (initProcess (Procs.boot 0x40090000)))
      [(forkCall, none)] ⟨_, _⟩ := Lts.Run.nil.snoc rfl
  have hreceive : recvLts.Run (RecvState.init (initProcess (Procs.boot 0x40090000)))
      [(forkCall, none), (.receive Message.zero, none)] ⟨_, _⟩ := hfork.snoc rfl
  refine ⟨_, ⟨_, _⟩, hreceive, rfl, rfl, rfl, ?_⟩
  intro hdel
  have hret : (-1 : Int) = 0 := (hdel.returns _ rfl (by decide)).1
  exact absurd hret (by decide)

/-- A message is queued before it is received. -/
theorem receive_delivers_queued :
    ∃ w, (recvLts.only Delivers).Run (RecvState.init (initProcess (Procs.boot 0)))
      [(.queue (.slot 0) { Message.zero with size := 1 }, none),
        (.receive Message.zero,
          some ⟨.slot 0, Message.zero, { Message.zero with size := 1 }, 0⟩)] w := by
  have hqueue : (recvLts.only CalledWithMessage).Run (RecvState.init (initProcess (Procs.boot 0)))
      [(.queue (.slot 0) { Message.zero with size := 1 }, none)] ⟨_, _⟩ :=
    Lts.Run.nil.snoc ⟨rfl, fun _ _ h => by cases h⟩
  have hreceive : (recvLts.only CalledWithMessage).Run
      (RecvState.init (initProcess (Procs.boot 0)))
      [(.queue (.slot 0) { Message.zero with size := 1 }, none),
        (.receive Message.zero,
          some ⟨.slot 0, Message.zero, { Message.zero with size := 1 }, 0⟩)] ⟨_, _⟩ :=
    hqueue.snoc ⟨rfl, fun msg c _ _ hcur => by
      rw [← (Option.some.inj hcur : ProcPtr.slot 0 = c)]
      exact List.cons_ne_nil _ _⟩
  exact ⟨_, ((receive_delivers_iff initProcess_boot_queues).2 hreceive).1⟩

end OsArm
