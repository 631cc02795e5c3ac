import OsArm.Vfs.Basic

/-!
# The two resolvers of process namespaces

`resolve_path` (for `vfs_open`) replaces the old path of a binding by the new
one; `resolve_namespace_path` (for `vfs_read_dir`) replaces the new one by the
old one.

* `resolvePath_eq`, `resolveNamespacePath_eq` — each applies the first binding
  that matches.
* `resolversAgree_iff` — the paths they make are equal exactly when the binding
  the one applies undoes the binding the other applies.
-/

namespace OsArm

/-! ## Which binding is applied -/

/-- The first binding whose old path is a prefix of `path`. -/
def firstOld (path : Str) (ns : List Binding) : Option Binding :=
  ns.find? fun b => b.oldPath <+: path

/-- The first binding whose new path is a prefix of `path`. -/
def firstNew (path : Str) (ns : List Binding) : Option Binding :=
  ns.find? fun b => b.newPath <+: path

/-- The separator `resolve_namespace_path` puts between the old path of `b` and
the rest of the path. -/
def separator (before : UInt8) (b : Binding) (rest : Str) : Str :=
  if rest ≠ [] ∧ rest.head? ≠ some slash ∧ b.oldPath.getLast?.getD before ≠ slash then [slash]
  else []

theorem resolvePath_eq (path : Str) (ns : List Binding) : resolvePath path ns =
    match firstOld path ns with
    | none => path
    | some b => b.newPath ++ path.drop b.oldPath.length := by
  induction ns with
  | nil => rfl
  | cons b ns ih =>
    rw [resolvePath, firstOld, List.find?_cons]
    by_cases h : b.oldPath <+: path
    · rw [if_pos ((strncmp_eq_zero_iff b.old_nul).2 h), decide_eq_true h]
    · rw [if_neg fun h' => h ((strncmp_eq_zero_iff b.old_nul).1 h'), decide_eq_false h]
      exact ih

theorem rewriteNew_eq (before : UInt8) (b : Binding) (path : Str) : rewriteNew before b path =
    b.oldPath ++ (separator before b (path.drop b.newPath.length) ++
      path.drop b.newPath.length) := by
  rw [rewriteNew, separator]
  split
  · rw [List.append_assoc]
  · rfl

theorem resolveNamespacePath_eq (before : UInt8) (heap : Heap) (path : Str) (ns : List Binding) :
    (resolveNamespacePath before heap path ns).1 =
      match firstNew path ns with
      | none => path
      | some b => if kalloc heap vfsMaxPath = none then path else rewriteNew before b path := by
  induction ns with
  | nil => rfl
  | cons b ns ih =>
    rw [resolveNamespacePath, firstNew, List.find?_cons]
    by_cases h : b.newPath <+: path
    · rw [if_pos ((strncmp_eq_zero_iff b.new_nul).2 h), decide_eq_true h]
      cases kalloc heap vfsMaxPath with
      | none => rfl
      | some r => rfl
    · rw [if_neg fun h' => h ((strncmp_eq_zero_iff b.new_nul).1 h'), decide_eq_false h]
      exact ih

theorem firstOld_prefix {path : Str} {ns : List Binding} {b : Binding}
    (h : firstOld path ns = some b) : b.oldPath <+: path := by
  have := List.find?_some h
  rwa [decide_eq_true_eq] at this

theorem firstNew_prefix {path : Str} {ns : List Binding} {b : Binding}
    (h : firstNew path ns = some b) : b ∈ ns ∧ b.newPath <+: path := by
  have hp := List.find?_some h
  rw [decide_eq_true_eq] at hp
  exact ⟨List.mem_of_find?_eq_some h, hp⟩

theorem firstOld_none {path : Str} {ns : List Binding} (h : firstOld path ns = none) :
    ∀ b ∈ ns, ¬ b.oldPath <+: path := by
  intro b hb
  have := List.find?_eq_none.1 h b hb
  rwa [decide_eq_true_eq] at this

theorem firstNew_none {path : Str} {ns : List Binding} (h : firstNew path ns = none) :
    ∀ b ∈ ns, ¬ b.newPath <+: path := by
  intro b hb
  have := List.find?_eq_none.1 h b hb
  rwa [decide_eq_true_eq] at this

/-! ## When they agree -/

/-- `vfs_open` and `vfs_read_dir` use one path. -/
def ResolversAgree (before : UInt8) (heap : Heap) (ns : List Binding) (path : Str) : Prop :=
  (openTarget ns path).2 = (resolveNamespacePath before heap path ns).1

/-- Replacing the old path of `b` and replacing the new path of `c` come to the
same thing, `sep` being the separator put in: the longer of the two replaced
prefixes is the shorter one and some more bytes. -/
def Undoes (b c : Binding) (sep : Str) : Prop :=
  (∃ d, c.newPath = b.oldPath ++ d ∧ b.newPath ++ d = c.oldPath ++ sep) ∨
    ∃ d, b.oldPath = c.newPath ++ d ∧ b.newPath = c.oldPath ++ (sep ++ d)

theorem undoes_iff {b c : Binding} {path sep : Str} (hb : b.oldPath <+: path)
    (hc : c.newPath <+: path) : Undoes b c sep ↔
      b.newPath ++ path.drop b.oldPath.length =
        c.oldPath ++ (sep ++ path.drop c.newPath.length) := by
  constructor
  · rintro (⟨d, hcd, hbd⟩ | ⟨d, hbd, hnew⟩)
    · obtain ⟨t, rfl⟩ := hc
      rw [hcd, List.append_assoc, List.drop_left, ← List.append_assoc b.oldPath, List.drop_left,
        ← List.append_assoc, hbd, List.append_assoc]
    · obtain ⟨t, rfl⟩ := hb
      rw [hbd, List.append_assoc, List.drop_left, ← List.append_assoc c.newPath, List.drop_left,
        hnew, List.append_assoc, List.append_assoc]
  · intro h
    rcases List.prefix_or_prefix_of_prefix hb hc with hle | hle
    · obtain ⟨d, hd⟩ := hle
      obtain ⟨t, rfl⟩ := hc
      rw [← hd, List.append_assoc, List.drop_left, ← List.append_assoc b.oldPath, List.drop_left,
        ← List.append_assoc, ← List.append_assoc c.oldPath, List.append_left_inj] at h
      exact Or.inl ⟨d, hd.symm, h⟩
    · obtain ⟨d, hd⟩ := hle
      obtain ⟨t, rfl⟩ := hb
      rw [← hd, List.append_assoc, List.drop_left, ← List.append_assoc c.newPath, List.drop_left,
        ← List.append_assoc sep, ← List.append_assoc c.oldPath, List.append_left_inj] at h
      exact Or.inr ⟨d, hd.symm, h⟩

/-- A prefix replaced by itself, and nothing else, leaves a path as it is. -/
theorem replace_eq_self_iff {old new path : Str} (h : old <+: path) :
    new ++ path.drop old.length = path ↔ new = old := by
  obtain ⟨t, rfl⟩ := h
  rw [List.drop_left, List.append_left_inj]

/-- **When opening and listing see one path.**  If no binding applies to it; or if
the bindings that apply undo each other; or, while `resolve_namespace_path` gets
no memory, if what `resolve_path` applies changes nothing. -/
theorem resolversAgree_iff (before : UInt8) (heap : Heap) (ns : List Binding) (path : Str) :
    ResolversAgree before heap ns path ↔
      match firstOld path ns, firstNew path ns with
      | none, none => True
      | none, some _ => kalloc heap vfsMaxPath = none
      | some _, none => False
      | some b, some c =>
        if kalloc heap vfsMaxPath = none then b.newPath = b.oldPath
        else Undoes b c (separator before c (path.drop c.newPath.length)) := by
  rw [ResolversAgree, openTarget, resolveNamespacePath_eq]
  dsimp only
  rw [resolvePath_eq]
  cases hold : firstOld path ns with
  | none =>
    cases hnew : firstNew path ns with
    | none => exact iff_of_true rfl trivial
    | some c =>
      obtain ⟨hmem, hc⟩ := firstNew_prefix hnew
      dsimp only
      split
      case isTrue hheap => exact iff_of_true rfl hheap
      case isFalse hheap =>
        refine iff_of_false (fun h => ?_) hheap
        -- the result begins with the old path of `c`, which `path` does not
        rw [rewriteNew_eq] at h
        exact firstOld_none hold c hmem ⟨_, h.symm⟩
  | some b =>
    have hb := firstOld_prefix hold
    cases hnew : firstNew path ns with
    | none =>
      refine iff_of_false (fun h => ?_) id
      have hmem : b ∈ ns := List.mem_of_find?_eq_some hold
      have hself := (replace_eq_self_iff hb).1 h
      exact firstNew_none hnew b hmem (hself ▸ hb)
    | some c =>
      obtain ⟨-, hc⟩ := firstNew_prefix hnew
      dsimp only
      split
      case isTrue hheap => exact replace_eq_self_iff hb
      case isFalse hheap => rw [undoes_iff hb hc, rewriteNew_eq]

/-! ## A binding that shows it -/

/-- `bind("/tmp/data", "/tmp/view")`. -/
def viewBinding : Binding where
  oldPath := tmpSlash ++ str ['d', 'a', 't', 'a']
  newPath := tmpSlash ++ str ['v', 'i', 'e', 'w']
  old_nul := by unfold NulFree; decide
  new_nul := by unfold NulFree; decide

/-- After the binding, `/tmp/view/f` is listed as `/tmp/data/f` and opened as it is. -/
theorem resolvers_disagree :
    let v := (bind 0 (vfsInit (fun _ => 0) [slash]) viewBinding).2
    let path := viewBinding.newPath ++ str ['/', 'f']
    (bind 0 (vfsInit (fun _ => 0) [slash]) viewBinding).1 = 0 ∧ v.ns = [viewBinding] ∧
      (openTarget v.ns path).2 = path ∧
      (resolveNamespacePath 0 v.heap path v.ns).1 = viewBinding.oldPath ++ str ['/', 'f'] ∧
      ¬ ResolversAgree 0 v.heap v.ns path := by
  unfold ResolversAgree
  decide

end OsArm
