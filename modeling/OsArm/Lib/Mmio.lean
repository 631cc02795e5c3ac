import OsArm.Lib.Transition

/-!
# Programs over device registers

A program reads and writes the registers of a device, and between any two of its accesses the device
may do something by itself.

* `Device`, `Mmio` — the device, and the program; a loop that waits for bits of a register to be
  clear is one step of the program, which can be taken again and again.
* `Mmio.lts` — the two together, in every order of their steps.
* `Mmio.Outline` — a proof outline: an assertion at each point of the program, which the device does
  not break, and an invariant that each of them implies.  `Outline.bind`, `Outline.weaken` put
  outlines together.
* `Outline.sound` — in every run the invariant holds at each point, and the postcondition at the
  end; `Outline.finishes` — from each point the program can still come to its end.
-/

/-- A device with registers `ι`: what reading and writing one does, and what happens by itself. -/
structure Device (σ ι ε : Type) where
  read : ι → σ → UInt32 × σ
  write : ι → UInt32 → σ → σ
  own : σ → ε → σ → Prop

/-- A program over registers; `poll` reads a register until the bits of the mask are clear. -/
inductive Mmio (ι α : Type)
  | done (r : α)
  | poll (reg : ι) (mask : UInt32) (next : Mmio ι α)
  | read (reg : ι) (next : UInt32 → Mmio ι α)
  | write (reg : ι) (v : UInt32) (next : Mmio ι α)

namespace Device

variable {σ ι ε : Type}

/-- The device on its own. -/
def alone (D : Device σ ι ε) : Lts σ ε where
  step := D.own

/-- The device does not break the assertion. -/
def Stable (D : Device σ ι ε) (P : σ → Prop) : Prop := ∀ s e t, P s → D.own s e t → P t

/-- The device can get to where the bits are clear. -/
def Clears (D : Device σ ι ε) (P : σ → Prop) (reg : ι) (mask : UInt32) : Prop :=
  ∀ s, P s → ∃ t, D.alone.Reachable s t ∧ (D.read reg t).1 &&& mask = 0

theorem Stable.reachable {D : Device σ ι ε} {P : σ → Prop} {s t : σ} (h : D.Stable P) (hs : P s)
    (ht : D.alone.Reachable s t) : P t :=
  ht.invariant (fun s e t hs hstep => h s e t hs hstep) hs

end Device

namespace Mmio

variable {σ ι ε α β : Type}

/-- One program after the other. -/
def bind (f : α → Mmio ι β) : Mmio ι α → Mmio ι β
  | done r => f r
  | poll reg mask next => poll reg mask (bind f next)
  | read reg next => read reg fun v => bind f (next v)
  | write reg v next => write reg v (bind f next)

instance : Monad (Mmio ι) where
  pure := done
  bind x f := bind f x

theorem bind_assoc {γ : Type} (x : Mmio ι α) (f : α → Mmio ι β) (g : β → Mmio ι γ) :
    x >>= f >>= g = x >>= fun r => f r >>= g := by
  induction x with
  | done r => rfl
  | poll reg mask next ih => exact congrArg (poll reg mask) ih
  | read reg next ih => exact congrArg (read reg) (funext ih)
  | write reg v next ih => exact congrArg (write reg v) ih

theorem bind_ne_done {x : Mmio ι α} (hx : ∀ r, x ≠ done r) (f : α → Mmio ι β) (r : β) :
    x >>= f ≠ done r := by
  cases x with
  | done r => exact absurd rfl (hx r)
  | poll reg mask next => exact fun h => by cases h
  | read reg next => exact fun h => by cases h
  | write reg v next => exact fun h => by cases h

/-- What one access does; a program that is done does nothing. -/
def access (D : Device σ ι ε) : Mmio ι α → σ → Option (Mmio ι α × σ)
  | done _, _ => none
  | poll reg mask next, s =>
    some (if (D.read reg s).1 &&& mask = 0 then next else poll reg mask next, (D.read reg s).2)
  | read reg next, s => some (next (D.read reg s).1, (D.read reg s).2)
  | write reg v next, s => some (next, D.write reg v s)

/-- The access of a program in front of another, as long as it is not done. -/
theorem access_bind {D : Device σ ι ε} {x : Mmio ι α} {f : α → Mmio ι β} {y : Mmio ι β} {s t : σ}
    (hx : ∀ r, x ≠ done r) (h : (x >>= f).access D s = some (y, t)) :
    ∃ x', x.access D s = some (x', t) ∧ y = x' >>= f := by
  cases x with
  | done r => exact absurd rfl (hx r)
  | poll reg mask next =>
    obtain ⟨rfl, rfl⟩ := Prod.mk.inj (Option.some.inj h)
    refine ⟨_, rfl, ?_⟩
    split <;> rfl
  | read reg next =>
    obtain ⟨rfl, rfl⟩ := Prod.mk.inj (Option.some.inj h)
    exact ⟨_, rfl, rfl⟩
  | write reg v next =>
    obtain ⟨rfl, rfl⟩ := Prod.mk.inj (Option.some.inj h)
    exact ⟨_, rfl, rfl⟩

/-- **The program with the device**: an access (`none`), or an event of the device. -/
def lts (D : Device σ ι ε) (α : Type) : Lts (Mmio ι α × σ) (Option ε) where
  step x e y :=
    match e with
    | none => x.1.access D x.2 = some y
    | some e => y.1 = x.1 ∧ D.own x.2 e y.2

/-- A run that begins with an access. -/
theorem access_cons {D : Device σ ι ε} {x y : Mmio ι α} {s t : σ} {z : Mmio ι α × σ}
    {tr : List (Option ε)} (h : x.access D s = some (y, t)) (hrun : (lts D α).Run (y, t) tr z) :
    (lts D α).Run (x, s) (none :: tr) z :=
  .cons (a := none) h hrun

/-- A run that begins with an event of the device. -/
theorem event_cons {D : Device σ ι ε} {x : Mmio ι α} {s t : σ} {e : ε} {z : Mmio ι α × σ}
    {tr : List (Option ε)} (h : D.own s e t) (hrun : (lts D α).Run (x, t) tr z) :
    (lts D α).Run (x, s) (some e :: tr) z := by
  have hstep : (lts D α).step (x, s) (some e) (x, t) := ⟨rfl, h⟩
  exact .cons hstep hrun

/-- **A proof outline** for the program, from the precondition to the postcondition, in which the
invariant holds at each point. -/
inductive Outline (D : Device σ ι ε) (I : σ → Prop) (Q : α → σ → Prop) :
    (σ → Prop) → Mmio ι α → Prop
  | done (r : α) (stable : D.Stable (Q r)) (inv : ∀ s, Q r s → I s) : Outline D I Q (Q r) (done r)
  | poll {P N : σ → Prop} {reg : ι} {mask : UInt32} {next : Mmio ι α} (stable : D.Stable P)
      (inv : ∀ s, P s → I s) (stays : ∀ s, P s → P (D.read reg s).2)
      (leaves : ∀ s, P s → (D.read reg s).1 &&& mask = 0 → N (D.read reg s).2)
      (clears : D.Clears P reg mask) (rest : Outline D I Q N next) :
      Outline D I Q P (poll reg mask next)
  | read {P : σ → Prop} {N : UInt32 → σ → Prop} {reg : ι} {next : UInt32 → Mmio ι α}
      (stable : D.Stable P) (inv : ∀ s, P s → I s)
      (step : ∀ s, P s → N (D.read reg s).1 (D.read reg s).2)
      (rest : ∀ v, Outline D I Q (N v) (next v)) : Outline D I Q P (read reg next)
  | write {P N : σ → Prop} {reg : ι} {v : UInt32} {next : Mmio ι α} (stable : D.Stable P)
      (inv : ∀ s, P s → I s) (step : ∀ s, P s → N (D.write reg v s))
      (rest : Outline D I Q N next) : Outline D I Q P (write reg v next)
  | weaken {P N : σ → Prop} {x : Mmio ι α} (weaker : ∀ s, P s → N s) (rest : Outline D I Q N x) :
      Outline D I Q P x

namespace Outline

variable {D : Device σ ι ε} {I : σ → Prop} {P : σ → Prop} {Q : α → σ → Prop} {R : β → σ → Prop}
  {x y : Mmio ι α} {s t : σ}

/-- One outline after the other. -/
theorem bind {f : α → Mmio ι β} (hx : Outline D I Q P x) (hf : ∀ r, Outline D I R (Q r) (f r)) :
    Outline D I R P (x >>= f) := by
  induction hx with
  | done r => exact hf r
  | poll stable inv stays leaves clears _ ih => exact .poll stable inv stays leaves clears ih
  | read stable inv step _ ih => exact .read stable inv step ih
  | write stable inv step _ ih => exact .write stable inv step ih
  | weaken weaker _ ih => exact .weaken weaker ih

/-- A weaker postcondition. -/
theorem conclude {Q' : α → σ → Prop} (h : Outline D I Q P x) (hQ : ∀ r s, Q r s → Q' r s)
    (hstable : ∀ r, D.Stable (Q' r)) (hI : ∀ r s, Q' r s → I s) : Outline D I Q' P x := by
  induction h with
  | done r => exact .weaken (hQ r) (.done r (hstable r) (hI r))
  | poll stable inv stays leaves clears _ ih => exact .poll stable inv stays leaves clears ih
  | read stable inv step _ ih => exact .read stable inv step ih
  | write stable inv step _ ih => exact .write stable inv step ih
  | weaken weaker _ ih => exact .weaken weaker ih

/-- A program that is not reached. -/
theorem unreached (hstable : ∀ r, D.Stable (Q r)) (hI : ∀ r s, Q r s → I s) (hP : ∀ s, ¬ P s)
    (x : Mmio ι α) : Outline D I Q P x := by
  induction x with
  | done r => exact .weaken (fun _ hs => absurd hs (hP _)) (.done r (hstable r) (hI r))
  | poll reg mask next ih =>
    exact .poll (fun _ _ _ hs _ => absurd hs (hP _)) (fun _ hs => absurd hs (hP _))
      (fun _ hs => absurd hs (hP _)) (fun _ hs _ => absurd hs (hP _))
        (fun _ hs => absurd hs (hP _)) ih
  | read reg next ih =>
    exact .read (N := fun _ => P) (fun _ _ _ hs _ => absurd hs (hP _))
      (fun _ hs => absurd hs (hP _))
      (fun _ hs => absurd hs (hP _)) ih
  | write reg v next ih =>
    exact .write (fun _ _ _ hs _ => absurd hs (hP _)) (fun _ hs => absurd hs (hP _))
      (fun _ hs => absurd hs (hP _)) ih

/-- What holds where an outline begins. -/
theorem inv (h : Outline D I Q P x) (hs : P s) : I s := by
  induction h with
  | done r stable inv => exact inv s hs
  | poll stable inv => exact inv s hs
  | read stable inv => exact inv s hs
  | write stable inv => exact inv s hs
  | weaken weaker _ ih => exact ih (weaker s hs)

/-- What holds at the end. -/
theorem post {r : α} (h : Outline D I Q P x) (hs : P s) (hx : x = .done r) : Q r s := by
  induction h with
  | done r' =>
    cases hx
    exact hs
  | poll => cases hx
  | read => cases hx
  | write => cases hx
  | weaken weaker _ ih => exact ih (weaker s hs) hx

/-- **One event of the device** leaves the program where it is in its outline. -/
theorem event {e : ε} (h : Outline D I Q P x) (hs : P s) (hown : D.own s e t) :
    ∃ P', Outline D I Q P' x ∧ P' t := by
  induction h with
  | done r stable inv => exact ⟨Q r, .done r stable inv, stable s e t hs hown⟩
  | @poll P _ _ _ _ stable inv stays leaves clears rest =>
    exact ⟨P, .poll stable inv stays leaves clears rest, stable s e t hs hown⟩
  | @read P _ _ _ stable inv step rest =>
    exact ⟨P, .read stable inv step rest, stable s e t hs hown⟩
  | @write P _ _ _ _ stable inv step rest =>
    exact ⟨P, .write stable inv step rest, stable s e t hs hown⟩
  | weaken weaker _ ih => exact ih (weaker s hs)

/-- **One access** takes the program on in its outline. -/
theorem access (h : Outline D I Q P x) (hs : P s) (hstep : x.access D s = some (y, t)) :
    ∃ P', Outline D I Q P' y ∧ P' t := by
  induction h with
  | done => cases hstep
  | @poll P P' reg mask next stable inv stays leaves clears rest =>
    cases hstep
    by_cases hclear : (D.read reg s).1 &&& mask = 0
    · rw [if_pos hclear]
      exact ⟨P', rest, leaves s hs hclear⟩
    · rw [if_neg hclear]
      exact ⟨P, .poll stable inv stays leaves clears rest, stays s hs⟩
  | @read P P' reg next stable inv step rest =>
    cases hstep
    exact ⟨P' _, rest _, step s hs⟩
  | @write P P' reg v next stable inv step rest =>
    cases hstep
    exact ⟨P', rest, step s hs⟩
  | weaken weaker _ ih => exact ih (weaker s hs) hstep

/-- **Soundness.**  However the program and the device take turns, the program is somewhere in its
outline. -/
theorem run {tr : List (Option ε)} (h : Outline D I Q P x) (hs : P s)
    (hrun : (lts D α).Run (x, s) tr (y, t)) : ∃ P', Outline D I Q P' y ∧ P' t := by
  refine hrun.invariant (P := fun z => ∃ P', Outline D I Q P' z.1 ∧ P' z.2) ?_ ⟨P, h, hs⟩
  rintro ⟨y, t⟩ e ⟨z, u⟩ ⟨P', hout, ht⟩ hstep
  cases e with
  | none => exact hout.access ht hstep
  | some e =>
    obtain ⟨hz, hown⟩ := hstep
    have hz : z = y := hz
    rw [hz]
    exact hout.event ht hown

/-- The invariant holds at each point of each run, and the postcondition at the end. -/
theorem sound {tr : List (Option ε)} (h : Outline D I Q P x) (hs : P s)
    (hrun : (lts D α).Run (x, s) tr (y, t)) : I t ∧ ∀ r, y = .done r → Q r t := by
  obtain ⟨P', hout, ht⟩ := h.run hs hrun
  exact ⟨hout.inv ht, fun r hr => hout.post ht hr⟩

/-- What the device does alone is a run of the two. -/
theorem waits (x : Mmio ι α) (h : D.alone.Reachable s t) : (lts D α).Reachable (x, s) (x, t) := by
  obtain ⟨tr, hrun⟩ := h
  induction hrun with
  | nil => exact .refl _
  | snoc _ hstep ih => exact ih.tail (a := some _) ⟨rfl, hstep⟩

/-- **The program can come to its end** from each point of its outline. -/
theorem finishes (h : Outline D I Q P x) (hs : P s) :
    ∃ r t, (lts D α).Reachable (x, s) (.done r, t) := by
  induction h generalizing s with
  | done r => exact ⟨r, s, .refl _⟩
  | @poll P P' reg mask next stable inv stays leaves clears rest ih =>
    obtain ⟨t, hreach, hclear⟩ := clears s hs
    have ht : P t := stable.reachable hs hreach
    obtain ⟨r, u, tr, hrun⟩ := ih (leaves t ht hclear)
    obtain ⟨tr', hwait⟩ := waits (.poll reg mask next) hreach
    have hpoll : (Mmio.poll reg mask next).access D t = some (next, (D.read reg t).2) := by
      rw [Mmio.access, if_pos hclear]
    exact ⟨r, u, _, hwait.append (access_cons hpoll hrun)⟩
  | read stable inv step rest ih =>
    obtain ⟨r, u, tr, hrun⟩ := ih _ (step s hs)
    exact ⟨r, u, _, access_cons rfl hrun⟩
  | write stable inv step rest ih =>
    obtain ⟨r, u, tr, hrun⟩ := ih (step s hs)
    exact ⟨r, u, _, access_cons rfl hrun⟩
  | weaken weaker _ ih => exact ih (weaker s hs)

end Outline

end Mmio
