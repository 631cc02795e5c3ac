import OsArm.Lib.Channel
import OsArm.Proc.Table

/-!
# The message queues

`queue_message` and `receive_message` on the ring buffers of the processes, in
any order and with any process current.

* `QueueOk` — how `head`, `tail` and `count` belong together; `enqueue_spec` and
  `dequeue_spec` say that the two operations keep it and what they do to the
  messages waiting.
* `QueueStep.simulates` — a step of the queues is a step of bounded FIFO channels.
* `SameQueues.of_apply` — the other calls of the process code leave them alone.
* `messages_fifo` — what every run of them delivers.
-/

namespace OsArm

/-! ## One queue -/

/-- `head` and `tail` are entries of the array, `count` of them lie between. -/
structure QueueOk (q : MessageQueue) : Prop where
  head_nonneg : 0 ≤ q.head
  head_lt : q.head < maxMessages
  count_nonneg : 0 ≤ q.count
  tail_eq : q.tail = (q.head + q.count) % maxMessages

/-- The messages waiting in a queue, the oldest first. -/
def MessageQueue.pending (q : MessageQueue) : List Message :=
  Ring.window q.messages maxMessages q.head.toNat q.count.toNat

theorem queueOk_zero : QueueOk MessageQueue.zero := by
  constructor <;> decide

theorem pending_zero : MessageQueue.zero.pending = [] := rfl

section Queue

variable {q : MessageQueue}

@[simp] theorem length_pending : q.pending.length = q.count.toNat := Ring.length_window

/-- The array index that `tail` stands for. -/
theorem QueueOk.tail_toNat (h : QueueOk q) :
    q.tail.toNat = (q.head.toNat + q.count.toNat) % maxMessages := by
  have hhead := h.head_nonneg
  have hcount := h.count_nonneg
  have htail := h.tail_eq
  simp only [maxMessages] at htail ⊢
  omega

theorem QueueOk.tail_bounds (h : QueueOk q) : 0 ≤ q.tail ∧ q.tail < maxMessages := by
  have htail := h.tail_eq
  simp only [maxMessages] at htail ⊢
  omega

/-- Storing a message in a queue with room puts it behind the others. -/
theorem enqueue_spec (h : QueueOk q) (hroom : q.count < maxMessages) (msg : Message) :
    QueueOk (q.enqueue msg) ∧ (q.enqueue msg).pending = q.pending ++ [msg] := by
  have hhead := h.head_nonneg
  have hlt := h.head_lt
  have hcount := h.count_nonneg
  have htail := h.tail_eq
  have hmod : (q.tail + 1).tmod maxMessages = (q.tail + 1) % maxMessages :=
    Int.tmod_eq_emod_of_nonneg (by have := h.tail_bounds; omega)
  simp only [maxMessages] at hhead hlt hcount htail hmod hroom
  constructor
  · constructor <;> simp only [MessageQueue.enqueue, maxMessages, hmod] <;> omega
  · have hnat : (q.count + 1).toNat = q.count.toNat + 1 := by omega
    have hlt' : q.count.toNat < maxMessages := by simp only [maxMessages]; omega
    show Ring.window (Function.update q.messages q.tail.toNat msg) maxMessages q.head.toNat
      (q.count + 1).toNat = _
    rw [hnat, h.tail_toNat, Ring.window_push hlt']
    rfl

/-- Taking the message at `head` takes the oldest one. -/
theorem dequeue_spec (h : QueueOk q) (hsome : q.count ≠ 0) :
    QueueOk q.dequeue ∧ q.pending = q.messages q.head.toNat :: q.dequeue.pending := by
  have hhead := h.head_nonneg
  have hlt := h.head_lt
  have hcount := h.count_nonneg
  have htail := h.tail_eq
  have hmod : (q.head + 1).tmod maxMessages = (q.head + 1) % maxMessages :=
    Int.tmod_eq_emod_of_nonneg (by omega)
  simp only [maxMessages] at hhead hlt hcount htail hmod
  constructor
  · constructor <;> simp only [MessageQueue.dequeue, maxMessages, hmod] <;> omega
  · have hnat : q.count.toNat = (q.count - 1).toNat + 1 := by omega
    have hlt' : q.head.toNat < maxMessages := by simp only [maxMessages]; omega
    have hnext : ((q.head + 1).tmod maxMessages).toNat = (q.head.toNat + 1) % maxMessages := by
      simp only [maxMessages, hmod]
      omega
    show Ring.window _ _ _ _ = q.messages q.head.toNat :: Ring.window q.messages maxMessages
      ((q.head + 1).tmod maxMessages).toNat (q.count - 1).toNat
    rw [hnat, Ring.window_pop hlt', hnext]

end Queue

/-! ## Calls that leave the queues alone -/

/-- A call that returns has had its first part return. -/
theorem ok_of_bind {α β : Type} {x : Except Halt α} {f : α → Except Halt β} {r : β}
    (h : x >>= f = .ok r) : ∃ a, x = .ok a ∧ f a = .ok r := by
  cases x with
  | error e => cases h
  | ok a => exact ⟨a, rfl, h⟩

/-- A call that has its first part return goes on. -/
theorem ok_bind {α β : Type} (a : α) (f : α → Except Halt β) : Except.ok a >>= f = f a := rfl

theorem ok_of_map {α β : Type} {x : Except Halt α} {f : α → β} {r : β} (h : x.map f = .ok r) :
    ∃ a, x = .ok a ∧ f a = r := by
  cases x with
  | error e => cases h
  | ok a => exact ⟨a, rfl, Except.ok.inj h⟩

/-- Every queue and every `msg_blocked` is as it was. -/
def SameQueues (s t : Procs) : Prop :=
  ∀ p, (t.proc p).msgQueue = (s.proc p).msgQueue ∧ (t.proc p).msgBlocked = (s.proc p).msgBlocked

namespace SameQueues

variable {s t u : Procs} {p c n : ProcPtr}

theorem refl (s : Procs) : SameQueues s s := fun _ => ⟨rfl, rfl⟩

theorem trans (h : SameQueues s t) (h' : SameQueues t u) : SameQueues s u :=
  fun p => ⟨(h' p).1.trans (h p).1, (h' p).2.trans (h p).2⟩

theorem modify {f : Process → Process} (hq : ∀ r, (f r).msgQueue = r.msgQueue)
    (hb : ∀ r, (f r).msgBlocked = r.msgBlocked) : SameQueues s (s.modify p f) :=
  fun _ => ⟨Procs.modify_field (·.msgQueue) hq, Procs.modify_field (·.msgBlocked) hb⟩

/-- Only the records matter. -/
theorem of_proc (hproc : t.proc = u.proc) (h : SameQueues s u) : SameQueues s t := by
  intro p
  rw [hproc]
  exact h p

theorem setUpChild {new : ProcPtr} : SameQueues s (setUpChild s new c) :=
  modify (fun _ => rfl) fun _ => rfl

theorem setUpFork {new : ProcPtr} (entry : UInt64) : SameQueues s (setUpFork s new c entry) :=
  modify (fun _ => rfl) fun _ => rfl

theorem markExited (status : Int) : SameQueues s (markExited s c status) :=
  modify (fun _ => rfl) fun _ => rfl

theorem setState (st : ProcState) : SameQueues s (s.setState p st) :=
  modify (fun _ => rfl) fun _ => rfl

theorem switchTo : SameQueues s (switchTo s c n) := by
  have hpre : SameQueues (s.setState n .running) (preempt (s.setState n .running) c) := by
    rw [preempt]
    split
    · exact setState .ready
    · exact refl _
  refine ((setState .running).trans hpre).trans fun p => ⟨?_, ?_⟩
  · exact contextSwitch_field (·.msgQueue) fun _ _ => rfl
  · exact contextSwitch_field (·.msgBlocked) fun _ _ => rfl

theorem schedule (h : schedule s = .ok t) : SameQueues s t := by
  obtain ⟨found, -, h⟩ := ok_of_bind h
  cases found with
  | none => cases h
  | some n =>
    obtain ⟨c, -, h⟩ := ok_of_bind h
    rw [← Except.ok.inj h]
    exact switchTo

theorem blockCurrent (h : blockCurrent s c = .ok t) : SameQueues s t :=
  (setState .blocked).trans (schedule h)

theorem createProcess {new : ProcPtr} (h : createProcess s = .ok (t, new)) : SameQueues s t := by
  obtain ⟨c, -, h⟩ := ok_of_bind h
  split at h
  · cases h
  · cases h
    exact of_proc rfl (setUpChild (c := c))

theorem wake (parent : Option ProcPtr) : SameQueues s (wake s parent) := by
  cases parent with
  | none => exact refl s
  | some p =>
    rw [OsArm.wake]
    split
    · exact setState .ready
    · exact refl s

/-- **Who touches the queues.**  No other call does, except that `process_create`
clears the queue of the record it has just been given. -/
theorem of_apply {call : ProcCall} (hreceive : ∀ msg, call ≠ .receiveMessage msg)
    (hcreate : ∀ entry, call ≠ .processCreate entry) (h : call.apply s = .ok t) :
    SameQueues s t := by
  cases call with
  | createProcess =>
    obtain ⟨⟨u, new⟩, hu, h⟩ := ok_of_map h
    rw [← h]
    exact createProcess hu
  | sendFork msg =>
    obtain ⟨r, hr, h⟩ := ok_of_map h
    obtain ⟨⟨u, new⟩, hu, hr⟩ := ok_of_bind hr
    cases hr
    rw [← h]
    exact createProcess hu
  | handleForkMessage msg =>
    obtain ⟨r, hr, h⟩ := ok_of_map h
    obtain ⟨c, -, hr⟩ := ok_of_bind hr
    obtain ⟨⟨u, new⟩, hu, hr⟩ := ok_of_bind hr
    cases hr
    rw [← h]
    exact (createProcess hu).trans (setUpFork msg.entry)
  | processCreate entry => exact absurd rfl (hcreate entry)
  | schedule => exact schedule h
  | waitForChild =>
    obtain ⟨c, -, h⟩ := ok_of_bind h
    exact blockCurrent h
  | sendWait msg =>
    obtain ⟨r, hr, h⟩ := ok_of_map h
    obtain ⟨c, -, hr⟩ := ok_of_bind hr
    obtain ⟨found, -, hr⟩ := ok_of_bind hr
    rw [← h]
    cases found with
    | some p =>
      cases hr
      exact refl s
    | none =>
      obtain ⟨u, hu, hr⟩ := ok_of_bind hr
      cases hr
      exact blockCurrent hu
  | sendWaitResumed caller msg =>
    obtain ⟨r, -, h⟩ := ok_of_map h
    rw [← h]
    exact refl s
  | handleWaitMessage msg =>
    obtain ⟨r, hr, h⟩ := ok_of_map h
    obtain ⟨c, -, hr⟩ := ok_of_bind hr
    obtain ⟨found, -, hr⟩ := ok_of_bind hr
    rw [← h]
    cases found with
    | some p =>
      cases hr
      exact setState .dead
    | none =>
      obtain ⟨u, hu, hr⟩ := ok_of_bind hr
      cases hr
      exact blockCurrent hu
  | receiveMessage msg => exact absurd rfl (hreceive msg)
  | exitProcess status =>
    obtain ⟨c, -, h⟩ := ok_of_bind h
    obtain ⟨parent, -, h⟩ := ok_of_bind h
    exact ((markExited status).trans (wake parent)).trans (schedule h)
  | compute cpu =>
    cases h
    exact refl s

end SameQueues

/-! ## All queues -/

/-- A step of the queues, labelled with what it answers: `queue_message`,
`receive_message` by the current process (up to where it gives the processor
away), and anything else that leaves the queues alone, whichever process is
current then. -/
inductive QueueStep : Procs → Channel.Event ProcPtr Message → Procs → Prop
  | queue (s : Procs) (p : ProcPtr) (msg : Message) :
      QueueStep s (.put p msg (decide ((queueMessage s p msg).2 = 0))) (queueMessage s p msg).1
  | receive {s t : Procs} {p : ProcPtr} {msg out : Message} {r : Int} :
      s.currentProcess = some p → receiveMessage s msg = .ok (t, out, r) →
      QueueStep s (.got p (if r = 0 then some out else none)) t
  | quiet {s t : Procs} : SameQueues s t → QueueStep s .quiet t

/-- The queues as a transition system. -/
def queueLts : Lts Procs (Channel.Event ProcPtr Message) where
  step := QueueStep

/-- Every queue is in order, and a process marked as waiting has none waiting. -/
structure QueuesOk (s : Procs) : Prop where
  queue : ∀ p, QueueOk (s.proc p).msgQueue
  blocked : ∀ p, (s.proc p).msgBlocked ≠ 0 → (s.proc p).msgQueue.count = 0

/-- The messages waiting for each process. -/
def pending (s : Procs) (p : ProcPtr) : List Message := (s.proc p).msgQueue.pending

section Steps

variable {s t : Procs} {p : ProcPtr} {msg : Message}

theorem clearBlocked_msgQueue (q : ProcPtr) :
    ((clearBlocked s p).proc q).msgQueue = (s.proc q).msgQueue := by
  rw [clearBlocked]
  split
  · exact Procs.modify_field (·.msgQueue) fun _ => rfl
  · rfl

theorem clearBlocked_msgBlocked (q : ProcPtr) :
    ((clearBlocked s p).proc q).msgBlocked = if q = p then 0 else (s.proc q).msgBlocked := by
  by_cases hq : q = p
  · subst hq
    rw [clearBlocked, if_pos rfl]
    split
    · simp [Procs.setMsgBlocked, Procs.modify]
    · next hb => exact not_not.1 hb
  · rw [clearBlocked, if_neg hq]
    split
    · simp [Procs.setMsgBlocked, Procs.modify, hq]
    · rfl

theorem setQueue_msgQueue (queue : MessageQueue) (q : ProcPtr) :
    ((s.setQueue p queue).proc q).msgQueue = if q = p then queue else (s.proc q).msgQueue := by
  by_cases hq : q = p
  · simp [Procs.setQueue, Procs.modify, hq]
  · simp [Procs.setQueue, Procs.modify, hq]

theorem setQueue_msgBlocked (queue : MessageQueue) (q : ProcPtr) :
    ((s.setQueue p queue).proc q).msgBlocked = (s.proc q).msgBlocked :=
  Procs.modify_field (·.msgBlocked) fun _ => rfl

/-- `queue_message` on a full queue. -/
theorem queueMessage_full (h : maxMessages ≤ (s.proc p).msgQueue.count) :
    queueMessage s p msg = (s, -1) := if_pos h

/-- `queue_message` on a queue with room. -/
theorem queueMessage_room (h : (s.proc p).msgQueue.count < maxMessages) :
    queueMessage s p msg =
      (clearBlocked (s.setQueue p ((s.proc p).msgQueue.enqueue msg)) p, 0) :=
  if_neg (Int.not_le.2 h)

/-- What `receive_message` does when nothing waits: at most the mark changes. -/
theorem receiveMessage_empty {out : Message} {r : Int} (hcur : s.currentProcess = some p)
    (hempty : (s.proc p).msgQueue.count = 0) (h : receiveMessage s msg = .ok (t, out, r)) :
    r = -1 ∧ (∀ q, (t.proc q).msgQueue = (s.proc q).msgQueue) ∧
      ∀ q ≠ p, (t.proc q).msgBlocked = (s.proc q).msgBlocked := by
  rw [receiveMessage, Procs.getCurrentProcess_eq hcur] at h
  replace h := (if_pos hempty).symm.trans h
  split at h
  · obtain ⟨u, hu, h⟩ := ok_of_bind h
    cases h
    have hsame := SameQueues.schedule hu
    refine ⟨rfl, fun q => (hsame q).1.trans (Procs.modify_field (·.msgQueue) fun _ => rfl), ?_⟩
    intro q hq
    rw [(hsame q).2]
    simp [Procs.setMsgBlocked, Procs.modify, hq]
  · cases h
    exact ⟨rfl, fun _ => rfl, fun _ _ => rfl⟩

/-- What `receive_message` does when a message waits. -/
theorem receiveMessage_some (hcur : s.currentProcess = some p)
    (hsome : (s.proc p).msgQueue.count ≠ 0) :
    receiveMessage s msg = .ok (s.setQueue p (s.proc p).msgQueue.dequeue,
      (s.proc p).msgQueue.messages (s.proc p).msgQueue.head.toNat, 0) := by
  rw [receiveMessage, Procs.getCurrentProcess_eq hcur]
  exact if_neg hsome

/-- `queue_message` refuses exactly when the queue is full. -/
theorem queueMessage_refuses_iff (s : Procs) (p : ProcPtr) (msg : Message) :
    (queueMessage s p msg).2 = -1 ↔ maxMessages ≤ (s.proc p).msgQueue.count := by
  rcases lt_or_ge (s.proc p).msgQueue.count maxMessages with hroom | hfull
  · have hne : (0 : Int) ≠ -1 := by decide
    rw [queueMessage_room hroom]
    exact iff_of_false hne (not_le.2 hroom)
  · rw [queueMessage_full hfull]
    exact iff_of_true rfl hfull

/-- `receive_message` delivers exactly when something waits. -/
theorem receiveMessage_delivers_iff (hcur : s.currentProcess = some p) :
    (∃ u out, receiveMessage s msg = .ok (u, out, 0)) ↔ (s.proc p).msgQueue.count ≠ 0 := by
  constructor
  · rintro ⟨u, out, hr⟩ hempty
    have hne : (0 : Int) ≠ -1 := by decide
    exact hne (receiveMessage_empty hcur hempty hr).1
  · intro hsome
    exact ⟨_, _, receiveMessage_some hcur hsome⟩

/-- One queue changes. -/
theorem pending_setQueue (queue : MessageQueue) :
    pending (s.setQueue p queue) = Function.update (pending s) p queue.pending := by
  funext q
  rw [pending, setQueue_msgQueue]
  by_cases hq : q = p
  · simp [hq]
  · simp [hq, pending]

theorem pending_clearBlocked : pending (clearBlocked s p) = pending s := by
  funext q
  rw [pending, clearBlocked_msgQueue, pending]

/-- A queue that is in order replaces one, and its process is not marked. -/
theorem QueuesOk.setQueue (h : QueuesOk s) {queue : MessageQueue} (hqueue : QueueOk queue)
    (hs : ∀ q, (t.proc q).msgQueue = ((s.setQueue p queue).proc q).msgQueue)
    (hp : (t.proc p).msgBlocked = 0)
    (hb : ∀ q ≠ p, (t.proc q).msgBlocked = (s.proc q).msgBlocked) : QueuesOk t where
  queue q := by
    rw [hs, setQueue_msgQueue]
    split
    · exact hqueue
    · exact h.queue q
  blocked q hq := by
    by_cases hqp : q = p
    · subst hqp
      exact absurd hp hq
    · rw [hb q hqp] at hq
      rw [hs, setQueue_msgQueue, if_neg hqp]
      exact h.blocked q hq

/-- `queue_message` puts into a channel. -/
theorem queueMessage_simulates (h : QueuesOk s) (p : ProcPtr) (msg : Message) :
    (Channel.lts ProcPtr Message maxMessages).step (pending s)
        (.put p msg (decide ((queueMessage s p msg).2 = 0))) (pending (queueMessage s p msg).1) ∧
      QueuesOk (queueMessage s p msg).1 := by
  have hok := h.queue p
  have hcount := hok.count_nonneg
  have hlen : (pending s p).length = (s.proc p).msgQueue.count.toNat := length_pending
  rcases lt_or_ge (s.proc p).msgQueue.count maxMessages with hroom | hfull
  · obtain ⟨hok', hpend⟩ := enqueue_spec hok hroom msg
    rw [queueMessage_room hroom]
    refine ⟨⟨?_, ?_⟩, h.setQueue hok' clearBlocked_msgQueue ?_ ?_⟩
    · omega
    · rw [pending_clearBlocked, pending_setQueue, hpend]
      rfl
    · rw [clearBlocked_msgBlocked, if_pos rfl]
    · intro q hq
      rw [clearBlocked_msgBlocked, if_neg hq, setQueue_msgBlocked]
  · rw [queueMessage_full hfull]
    refine ⟨⟨?_, rfl⟩, h⟩
    omega

/-- `receive_message` gets from the channel of the current process. -/
theorem receiveMessage_simulates (h : QueuesOk s) {out : Message} {r : Int}
    (hcur : s.currentProcess = some p) (hr : receiveMessage s msg = .ok (t, out, r)) :
    (Channel.lts ProcPtr Message maxMessages).step (pending s)
        (.got p (if r = 0 then some out else none)) (pending t) ∧
      QueuesOk t := by
  by_cases hempty : (s.proc p).msgQueue.count = 0
  · obtain ⟨rfl, hqueue, hblocked⟩ := receiveMessage_empty hcur hempty hr
    have hpending : pending t = pending s := by
      funext q
      rw [pending, hqueue, pending]
    refine ⟨⟨?_, hpending⟩, ?_, ?_⟩
    · refine List.length_eq_zero_iff.1 ?_
      rw [pending, length_pending, hempty]
      rfl
    · intro q
      rw [hqueue]
      exact h.queue q
    · intro q hq
      rw [hqueue]
      by_cases hqp : q = p
      · rw [hqp, hempty]
      · rw [hblocked q hqp] at hq
        exact h.blocked q hq
  · rw [receiveMessage_some hcur hempty] at hr
    cases hr
    obtain ⟨hok', hpend⟩ := dequeue_spec (h.queue p) hempty
    refine ⟨⟨_, hpend, pending_setQueue _⟩, h.setQueue hok' (fun _ => rfl) ?_ ?_⟩
    · rw [setQueue_msgBlocked]
      by_contra hb
      exact hempty (h.blocked p hb)
    · exact fun q _ => setQueue_msgBlocked _ q

/-- **One step** of the queues is a step of the channels. -/
theorem QueueStep.simulates {e : Channel.Event ProcPtr Message} (h : QueuesOk s)
    (hstep : QueueStep s e t) :
    (Channel.lts ProcPtr Message maxMessages).step (pending s) e (pending t) ∧ QueuesOk t := by
  cases hstep with
  | queue p msg => exact queueMessage_simulates h p msg
  | receive hcur hr => exact receiveMessage_simulates h hcur hr
  | quiet hsame =>
    refine ⟨?_, ?_, ?_⟩
    · show pending t = pending s
      funext q
      rw [pending, (hsame q).1, pending]
    · intro q
      rw [(hsame q).1]
      exact h.queue q
    · intro q hq
      rw [(hsame q).2] at hq
      rw [(hsame q).1]
      exact h.blocked q hq

/-! ## Every run -/

/-- Zeroed queues are in order and empty. -/
theorem queuesOk_zero
    (h : ∀ p, (s.proc p).msgQueue = MessageQueue.zero ∧ (s.proc p).msgBlocked = 0) :
    QueuesOk s ∧ pending s = fun _ => [] := by
  refine ⟨⟨?_, fun p hp => absurd (h p).2 hp⟩, ?_⟩
  · intro p
    rw [(h p).1]
    exact queueOk_zero
  · funext p
    rw [pending, (h p).1, pending_zero]

/-- **First in, first out.**  From zeroed queues, after any run: what a process
has received is a prefix of what was accepted for it and the rest is waiting,
`queue_message` refuses exactly when 32 messages are waiting and then changes
nothing, `receive_message` delivers exactly when one is waiting, and the ring
buffer is in order. -/
theorem messages_fifo {tr : List (Channel.Event ProcPtr Message)}
    (h0 : ∀ p, (s.proc p).msgQueue = MessageQueue.zero ∧ (s.proc p).msgBlocked = 0)
    (h : queueLts.Run s tr t) (p : ProcPtr) :
    Channel.received p tr <+: Channel.accepted p tr ∧
    (t.proc p).msgQueue.pending =
      (Channel.accepted p tr).drop (Channel.received p tr).length ∧
    (∀ msg, ((queueMessage t p msg).2 = -1 ↔
        (Channel.accepted p tr).length = (Channel.received p tr).length + 32) ∧
      ((queueMessage t p msg).2 = -1 → (queueMessage t p msg).1 = t)) ∧
    (t.currentProcess = some p → ∀ msg,
      ((∃ u out, receiveMessage t msg = .ok (u, out, 0)) ↔
        (Channel.received p tr).length < (Channel.accepted p tr).length)) ∧
    (0 ≤ (t.proc p).msgQueue.count ∧ (t.proc p).msgQueue.count ≤ 32) ∧
    (0 ≤ (t.proc p).msgQueue.head ∧ (t.proc p).msgQueue.head < 32) ∧
    (0 ≤ (t.proc p).msgQueue.tail ∧ (t.proc p).msgQueue.tail < 32) ∧
    (t.proc p).msgQueue.tail = ((t.proc p).msgQueue.head + (t.proc p).msgQueue.count) % 32 ∧
    ((t.proc p).msgBlocked = 1 → (t.proc p).msgQueue.count = 0) := by
  obtain ⟨hok0, hpend0⟩ := queuesOk_zero h0
  obtain ⟨c, hc, hok, rfl⟩ := h.simulates
    (N := Channel.lts ProcPtr Message maxMessages) (R := fun s c => QueuesOk s ∧ c = pending s)
    (t := pending s) (fun s e s' c hR hstep => by
      obtain ⟨hok, rfl⟩ := hR
      obtain ⟨hN, hok'⟩ := QueueStep.simulates hok hstep
      exact ⟨pending s', hN, hok', rfl⟩) ⟨hok0, rfl⟩
  rw [hpend0] at hc
  have hfifo : Channel.accepted p tr = Channel.received p tr ++ (t.proc p).msgQueue.pending :=
    Channel.run_fifo hc p
  have hlen : (Channel.accepted p tr).length =
      (Channel.received p tr).length + (t.proc p).msgQueue.count.toNat := by
    rw [hfifo, List.length_append, length_pending]
  have hqueue := hok.queue p
  have hcount := hqueue.count_nonneg
  have hle : (t.proc p).msgQueue.count ≤ 32 := by
    have hbound : (pending t p).length ≤ maxMessages := Channel.run_bounded hc p
    rw [pending, length_pending, maxMessages] at hbound
    omega
  refine ⟨⟨_, hfifo.symm⟩, ?_, fun msg => ⟨?_, ?_⟩, ?_, ⟨hcount, hle⟩,
    ⟨hqueue.head_nonneg, hqueue.head_lt⟩, hqueue.tail_bounds, hqueue.tail_eq, ?_⟩
  · rw [hfifo, List.drop_left]
  · rw [queueMessage_refuses_iff, maxMessages]
    omega
  · intro hr
    rw [queueMessage_full ((queueMessage_refuses_iff t p msg).1 hr)]
  · intro hcur msg
    rw [receiveMessage_delivers_iff hcur]
    omega
  · intro hb
    refine hok.blocked p ?_
    rw [hb]
    decide

/-- After `init_process` all queues are empty, and nobody waits for a message. -/
theorem initProcess_boot_queues (p : ProcPtr) :
    ((initProcess (Procs.boot 0)).proc p).msgQueue = MessageQueue.zero ∧
      ((initProcess (Procs.boot 0)).proc p).msgBlocked = 0 := by
  by_cases hp : p = .slot 0
  · simp [initProcess, Procs.modify, Procs.boot, Process.zero, hp]
  · simp [initProcess, Procs.modify, Procs.boot, Process.zero, hp]

/-- Two messages are queued for the first process, which receives one. -/
theorem messages_fifo_receive :
    ∃ t, queueLts.Run (initProcess (Procs.boot 0))
        [.put (.slot 0) { Message.zero with size := 1 } true,
          .put (.slot 0) { Message.zero with size := 2 } true,
          .got (.slot 0) (some { Message.zero with size := 1 })] t ∧
      (t.proc (.slot 0)).msgQueue.pending = [{ Message.zero with size := 2 }] := by
  have hput := (Lts.Run.nil (M := queueLts)).snoc
    (.queue (initProcess (Procs.boot 0)) (.slot 0) { Message.zero with size := 1 })
  have hput' := hput.snoc (.queue _ (.slot 0) { Message.zero with size := 2 })
  have hrun := hput'.snoc (.receive (p := .slot 0) (s := _) rfl
    (rfl : receiveMessage _ Message.zero = _))
  exact ⟨_, hrun, (messages_fifo initProcess_boot_queues hrun (.slot 0)).2.1⟩

end Steps

end OsArm
