import OsArm.Vfs.Namespace

/-!
# Which paths a binding rewrites (`resolve_namespace_path` in `vfs.c`)

`resolve_namespace_path` compares characters: it applies a binding to every path that begins with
the characters of its target.

* `joinNames` — components with single slashes between them; `joinNames_tokens_iff` says for which
  strings splitting and joining is the identity.
* `Covers` — a target that ends where a component of the path ends.
* `stopsAt` — the binding that the loop stops at; `bindingFor` — the one that covers the path.
* `RewritesBelow` — the path is rewritten by the binding that covers it, with single separators.
* `rewritesBelow_iff` — it is exactly when the first target that the path begins with covers it,
  and neither side brings a slash too many.
-/

namespace OsArm

/-! ## Joining components -/

/-- Components with single slashes between them. -/
def joinNames : List Str → Str
  | [] => []
  | [c] => c
  | c :: cs => c ++ slash :: joinNames cs

/-- No two slashes in a row, and none at either end. -/
def SingleSlashes (s : Str) : Prop := [] ∉ splitSlash s

section Join

variable {s : Str} {cs : List Str}

theorem joinNames_cons (c : Str) (h : cs ≠ []) :
    joinNames (c :: cs) = c ++ slash :: joinNames cs := by
  cases cs with
  | nil => exact absurd rfl h
  | cons d ds => rfl

/-- Joining undoes splitting. -/
theorem joinNames_splitSlash (s : Str) : joinNames (splitSlash s) = s := by
  induction s with
  | nil => rfl
  | cons x xs ih =>
    rw [splitSlash]
    cases hsplit : splitSlash xs with
    | nil => exact absurd hsplit (splitSlash_ne_nil xs)
    | cons w ws =>
      rw [hsplit] at ih
      dsimp only
      split
      · next hx =>
        rw [joinNames_cons _ (List.cons_ne_nil w ws), ih, hx]
        rfl
      · cases ws with
        | nil =>
          rw [joinNames] at ih ⊢
          rw [ih]
        | cons u us =>
          rw [joinNames_cons _ (List.cons_ne_nil u us)] at ih ⊢
          rw [← ih]
          rfl

/-- Splitting undoes joining. -/
theorem splitSlash_joinNames (hne : cs ≠ []) (h : ∀ c ∈ cs, slash ∉ c) :
    splitSlash (joinNames cs) = cs := by
  induction cs with
  | nil => exact absurd rfl hne
  | cons c cs ih =>
    have hc := h c List.mem_cons_self
    cases cs with
    | nil => exact splitSlash_of_notMem hc
    | cons d ds =>
      rw [joinNames_cons c (List.cons_ne_nil d ds), splitSlash_append, splitSlash_of_notMem hc,
        ih (List.cons_ne_nil d ds) fun e he => h e (List.mem_cons_of_mem c he)]
      rfl

theorem tokens_eq_nil_iff : tokens s = [] ↔ ∀ w ∈ splitSlash s, w = [] := by
  rw [tokens, List.filter_eq_nil_iff]
  simp

/-- **Splitting into components and joining them again** changes a string unless its slashes are
single. -/
theorem joinNames_tokens_iff : joinNames (tokens s) = s ↔ s = [] ∨ SingleSlashes s := by
  constructor
  · intro hs
    by_cases hnil : tokens s = []
    · rw [hnil] at hs
      exact Or.inl hs.symm
    · have hsplit := splitSlash_joinNames hnil fun c hc => (areNames_tokens s c hc).2
      rw [hs] at hsplit
      refine Or.inr ?_
      intro hmem
      rw [hsplit] at hmem
      exact (areNames_tokens s [] hmem).1 rfl
  · rintro (rfl | hsingle)
    · rfl
    · have hall : tokens s = splitSlash s := by
        rw [tokens, List.filter_eq_self]
        intro w hw
        exact decide_eq_true fun hnil => hsingle (hnil ▸ hw)
      rw [hall, joinNames_splitSlash]

/-- Joined components do not begin with a slash. -/
theorem joinNames_head (h : AreNames cs) : (joinNames cs).head? ≠ some slash := by
  cases cs with
  | nil => simp [joinNames]
  | cons c cs =>
    obtain ⟨hne, hslash⟩ := h c List.mem_cons_self
    have hhead : (joinNames (c :: cs)).head? = c.head? := by
      cases cs with
      | nil => rfl
      | cons d ds =>
        rw [joinNames_cons c (List.cons_ne_nil d ds), List.head?_append_of_ne_nil _ hne]
    rw [hhead]
    intro heq
    obtain ⟨t, rfl⟩ := List.head?_eq_some_iff.1 heq
    exact hslash List.mem_cons_self

end Join

/-! ## The claim of a binding -/

/-- The target is the path, or is followed in it by a slash, which may be its own last one. -/
def Covers (target path : Str) : Prop :=
  target = path ∨ target ++ [slash] <+: path ∨ target.getLast? = some slash ∧ target <+: path

instance (target path : Str) : Decidable (Covers target path) :=
  inferInstanceAs (Decidable (_ ∨ _ ∨ _))

/-- The first binding whose target covers the path. -/
def bindingFor (path : Str) (ns : List Binding) : Option Binding :=
  ns.find? fun b => Covers b.newPath path

/-- The components behind the old path, with single separators. -/
def joinPath (old : Str) (cs : List Str) : Str :=
  if cs = [] then old
  else (if old.getLast? = some slash then old else old ++ [slash]) ++ joinNames cs

/-- The binding that the loop of `resolve_namespace_path` stops at. -/
def stopsAt (path : Str) : List Binding → Option Binding
  | [] => none
  | b :: ns => if strncmp path b.newPath b.newPath.length = 0 then some b else stopsAt path ns

/-- **Only paths below a target are rewritten**, by the first binding that covers them. -/
structure RewritesBelow (before : UInt8) (heap : Heap) (ns : List Binding) (path : Str) : Prop where
  uses : stopsAt path ns = bindingFor path ns
  returns : (resolveNamespacePath before heap path ns).1 =
    match bindingFor path ns with
    | none => path
    | some b => joinPath b.oldPath (tokens (path.drop b.newPath.length))

/-- `old` and the rest of the path come together with single separators; `before` is what an empty
`old` is preceded by. -/
def Tidy (before : UInt8) (old rest : Str) : Prop :=
  rest = [] ∨
    (rest.head? = some slash ∧ old.getLast? ≠ some slash ∧ SingleSlashes rest.tail) ∨
    (rest.head? ≠ some slash ∧ SingleSlashes rest ∧ (old = [] → before ≠ slash))

section Rewriting

variable {before : UInt8} {heap : Heap} {ns : List Binding} {path old rest : Str} {b : Binding}

theorem Covers.isPrefix {target : Str} (h : Covers target path) : target <+: path := by
  rcases h with rfl | h | ⟨-, h⟩
  · exact List.prefix_refl _
  · exact (List.prefix_append _ _).trans h
  · exact h

theorem stopsAt_eq (path : Str) (ns : List Binding) : stopsAt path ns = firstNew path ns := by
  induction ns with
  | nil => rfl
  | cons b ns ih =>
    rw [stopsAt, firstNew, List.find?_cons]
    by_cases h : b.newPath <+: path
    · rw [if_pos ((strncmp_eq_zero_iff b.new_nul).2 h), decide_eq_true h]
    · rw [if_neg fun h' => h ((strncmp_eq_zero_iff b.new_nul).1 h'), decide_eq_false h]
      exact ih

/-- A binding that covers the path is not passed over. -/
theorem bindingFor_of_firstNew_none (h : firstNew path ns = none) : bindingFor path ns = none := by
  refine List.find?_eq_none.2 fun b hb hcovers => ?_
  exact firstNew_none h b hb (of_decide_eq_true hcovers).isPrefix

/-- The loop stops at the binding that covers the path, or at one that does not. -/
theorem bindingFor_eq_iff (h : firstNew path ns = some b) :
    bindingFor path ns = some b ↔ Covers b.newPath path := by
  constructor
  · intro hfor
    have hfind : ns.find? (fun b => decide (Covers b.newPath path)) = some b := hfor
    simpa using List.find?_some hfind
  · intro hcovers
    unfold firstNew at h
    unfold bindingFor
    obtain ⟨-, as, bs, rfl, hbefore⟩ := List.find?_eq_some_iff_append.1 h
    refine List.find?_eq_some_iff_append.2 ⟨decide_eq_true hcovers, as, bs, rfl, fun a ha => ?_⟩
    have hno := hbefore a ha
    simp only [Bool.not_eq_true', decide_eq_false_iff_not] at hno ⊢
    exact fun hc => hno hc.isPrefix

/-- The components of a rest that begins with something else than a slash. -/
theorem tokens_ne_nil {x : UInt8} {r : Str} (hx : x ≠ slash) : tokens (x :: r) ≠ [] := by
  rw [Ne, tokens_eq_nil_iff, splitSlash]
  cases hsplit : splitSlash r with
  | nil => exact absurd hsplit (splitSlash_ne_nil r)
  | cons w ws =>
    dsimp only
    rw [if_neg hx]
    exact fun hall => List.cons_ne_nil x w (hall _ List.mem_cons_self)

/-- A rest that begins with a slash. -/
theorem rewrite_slash {r : Str} (hrest : rest = slash :: r) :
    old ++ rest = joinPath old (tokens rest) ↔ old.getLast? ≠ some slash ∧ SingleSlashes r := by
  subst hrest
  rw [tokens_slash]
  by_cases hnil : tokens r = []
  · rw [hnil, joinPath, if_pos rfl, List.append_right_eq_self]
    refine iff_of_false (List.cons_ne_nil slash r) fun hboth => hboth.2 ?_
    obtain ⟨w, hw⟩ := List.exists_mem_of_ne_nil _ (splitSlash_ne_nil r)
    have hempty := tokens_eq_nil_iff.1 hnil w hw
    rwa [hempty] at hw
  · have hr : r ≠ [] := by
      rintro rfl
      exact hnil rfl
    have hjoin : joinNames (tokens r) = r ↔ SingleSlashes r :=
      joinNames_tokens_iff.trans (or_iff_right hr)
    rw [joinPath, if_neg hnil]
    by_cases hlast : old.getLast? = some slash
    · rw [if_pos hlast, List.append_right_inj]
      refine iff_of_false (fun heq => ?_) fun hboth => hboth.1 hlast
      have hhead := joinNames_head (areNames_tokens r)
      rw [← heq] at hhead
      exact hhead rfl
    · rw [if_neg hlast, List.append_assoc, List.append_right_inj, List.singleton_append,
        List.cons_inj_right, eq_comm, hjoin]
      exact (and_iff_right hlast).symm

/-- A rest that does not: there is a slash put in front of it, unless `old` ends with one. -/
theorem rewrite_name {x : UInt8} {r : Str} (hrest : rest = x :: r) (hx : x ≠ slash) :
    (if old.getLast?.getD before ≠ slash then old ++ [slash] ++ rest else old ++ rest) =
        joinPath old (tokens rest) ↔ SingleSlashes rest ∧ (old = [] → before ≠ slash) := by
  have hne : rest ≠ [] := by
    rw [hrest]
    exact List.cons_ne_nil x r
  have htokens : tokens rest ≠ [] := by
    rw [hrest]
    exact tokens_ne_nil hx
  have hjoin : joinNames (tokens rest) = rest ↔ SingleSlashes rest :=
    joinNames_tokens_iff.trans (or_iff_right hne)
  rw [joinPath, if_neg htokens]
  cases hlast : old.getLast? with
  | none =>
    have hold : old = [] := List.getLast?_eq_none_iff.1 hlast
    subst hold
    simp only [Option.getD_none]
    rw [if_neg (show ¬ (none : Option UInt8) = some slash by simp)]
    by_cases hbefore : before = slash
    · rw [if_neg (not_not.2 hbefore)]
      refine iff_of_false (fun heq => ?_) fun hboth => hboth.2 trivial hbefore
      rw [hrest] at heq
      exact hx (List.cons.inj heq).1
    · rw [if_pos hbefore, List.append_right_inj, eq_comm, hjoin]
      exact (and_iff_left fun _ => hbefore).symm
  | some y =>
    have hold : old ≠ [] := by
      rintro rfl
      cases hlast
    simp only [Option.getD_some, Option.some_inj]
    by_cases hy : y = slash
    · rw [if_neg (not_not.2 hy), if_pos hy, List.append_right_inj, eq_comm, hjoin]
      exact (and_iff_left fun hnil => absurd hnil hold).symm
    · rw [if_pos hy, if_neg hy, List.append_right_inj, eq_comm, hjoin]
      exact (and_iff_left fun hnil => absurd hnil hold).symm

/-- **The separators** are single if and only if both sides are tidy. -/
theorem rewriteNew_eq_joinPath (hrest : path.drop b.newPath.length = rest) :
    rewriteNew before b path = joinPath b.oldPath (tokens rest) ↔ Tidy before b.oldPath rest := by
  unfold rewriteNew Tidy
  rw [hrest]
  dsimp only
  cases rest with
  | nil =>
    rw [if_neg fun hand => hand.1 rfl, List.append_nil, tokens_nil]
    exact iff_of_true rfl (Or.inl rfl)
  | cons x r =>
    by_cases hx : x = slash
    · subst hx
      rw [if_neg fun hand => hand.2.1 rfl, rewrite_slash rfl]
      simp
    · have hhead : (x :: r).head? ≠ some slash := by simpa using hx
      have hcond : ((x :: r) ≠ [] ∧ (x :: r).head? ≠ some slash ∧
        b.oldPath.getLast?.getD before ≠ slash) ↔
          b.oldPath.getLast?.getD before ≠ slash :=
        ⟨fun hand => hand.2.2, fun hsep => ⟨List.cons_ne_nil x r, hhead, hsep⟩⟩
      simp only [hcond]
      rw [rewrite_name rfl hx]
      simp [hx]

/-- **When only paths below a target are rewritten.**  For every list of bindings and every path:
if it begins with no target; or if the first target that it begins with covers it, and the old path
and the rest come together with single separators, or, when there is no memory for the result, come
to the path itself. -/
theorem rewritesBelow_iff (before : UInt8) (heap : Heap) (ns : List Binding) (path : Str) :
    RewritesBelow before heap ns path ↔
      match firstNew path ns with
      | none => True
      | some b =>
        Covers b.newPath path ∧
          if kalloc heap vfsMaxPath = none then
            joinPath b.oldPath (tokens (path.drop b.newPath.length)) = path
          else Tidy before b.oldPath (path.drop b.newPath.length) := by
  have hresolve := resolveNamespacePath_eq before heap path ns
  cases hnew : firstNew path ns with
  | none =>
    rw [hnew] at hresolve
    have hfor := bindingFor_of_firstNew_none hnew
    refine iff_of_true ⟨?_, ?_⟩ trivial
    · rw [stopsAt_eq, hnew, hfor]
    · rw [hfor]
      exact hresolve
  | some b =>
    rw [hnew] at hresolve
    dsimp only at hresolve ⊢
    have hreturns : bindingFor path ns = some b → ((resolveNamespacePath before heap path ns).1 =
        (match bindingFor path ns with
          | none => path
          | some b => joinPath b.oldPath (tokens (path.drop b.newPath.length))) ↔
        if kalloc heap vfsMaxPath = none then
          joinPath b.oldPath (tokens (path.drop b.newPath.length)) = path
        else Tidy before b.oldPath (path.drop b.newPath.length)) := by
      intro hfor
      rw [hfor, hresolve]
      split
      · exact eq_comm
      · exact rewriteNew_eq_joinPath rfl
    constructor
    · rintro ⟨huses, hret⟩
      rw [stopsAt_eq, hnew] at huses
      exact ⟨(bindingFor_eq_iff hnew).1 huses.symm, (hreturns huses.symm).1 hret⟩
    · rintro ⟨hcovers, htidy⟩
      have hfor := (bindingFor_eq_iff hnew).2 hcovers
      exact ⟨by rw [stopsAt_eq, hnew, hfor], (hreturns hfor).2 htidy⟩

end Rewriting

/-- `bind("/data", "/private")`. -/
def privateBinding : Binding where
  oldPath := str ['/', 'd', 'a', 't', 'a']
  newPath := str ['/', 'p', 'r', 'i', 'v', 'a', 't', 'e']
  old_nul := by unfold NulFree; decide
  new_nul := by unfold NulFree; decide

/-- **`"/private2/x"` is rewritten to `"/data/2/x"`**, which is not below the target. -/
theorem lookalike_rewritten :
    let path := privateBinding.newPath ++ str ['2', '/', 'x']
    bindingFor path [privateBinding] = none ∧
      (resolveNamespacePath 0 (Heap.mk 0) path [privateBinding]).1 =
        privateBinding.oldPath ++ str ['/', '2', '/', 'x'] ∧
      ¬ RewritesBelow 0 (Heap.mk 0) [privateBinding] path := by
  refine ⟨by decide, by decide, fun h => ?_⟩
  have huses := h.uses
  revert huses
  decide

end OsArm
