import OsArm.Shell.Buffers

/-!
# The working directory (`cmd_cd` in `shell.c`)

`cmd_cd` resolves its argument in place: a loop over the components, the text of `temp_path` being
cut or extended with each.

* `Canonical` — `"/"`, or names with a slash in front of each.
* `cdTarget` — where the components lead, as a list of names.
* `CdLoop` — the loop as a relation, without a bound on its turns.
* `StandsFor` — the text of a buffer against the names it stands for; `StandsFor.enter` is one
  component, `StandsFor.enterAll` all of them.
* `cd_canonical` — over every sequence of `cd` commands the working directory stays canonical.
-/

namespace OsArm

/-! ## Canonical paths -/

/-- A component that is kept: something without a slash, and not one of the dots. -/
def IsName (c : Str) : Prop := (c ≠ [] ∧ slash ∉ c) ∧ c ≠ str ['.'] ∧ c ≠ str ['.', '.']

/-- **A canonical path.** -/
def Canonical (p : Str) : Prop := ∃ cs, (∀ c ∈ cs, IsName c) ∧ p = dirPath cs

/-- The names of the directory that `cd` is asked for. -/
def cdTarget (cwd path : Str) : List Str :=
  if path = [] then []
  else follow (if path.head? = some slash then [] else tokens cwd) (tokens path)

/-- All intermediate results fit in 255 bytes; the three arguments that are looked at first need
no buffer, and an empty directory may be resolved as it is. -/
def CdRoom (v : Vfs) (path : Str) : Prop :=
  v.cwd.length < vfsMaxPath ∧ (path ≠ [] → path ≠ str ['.'] → path ≠ str ['.', '.'] →
    path.length < vfsMaxPath ∧ CdFits v path ∧ (v.cwd = [] → ResolveFits [] v.ns))

/-- The loop of `cmd_cd` comes to its end. -/
inductive CdLoop (total : Nat) : PathBuf → List Nat → Str → PathBuf × List Nat → Prop
  | done {temp : PathBuf} {copied : List Nat} {save : Str} : strtokR save [slash] = none →
      CdLoop total temp copied save (temp, copied ++ strtokStores (total - save.length) save)
  | turn {temp : PathBuf} {copied : List Nat} {save component rest : Str} {r : PathBuf × List Nat} :
      strtokR save [slash] = some (component, rest) →
      CdLoop total (enter temp component)
        (copied ++ strtokStores (total - save.length) save) rest r →
      CdLoop total temp copied save r

/-- `cd` commands, with room for their results. -/
def cdLts : Lts Vfs Str where
  step v path w := CdRoom v path ∧ w = (cmdCd v path).1

section Names

variable {cs comps : List Str} {c : Str}

theorem areNames_of_isName (h : ∀ c ∈ cs, IsName c) : AreNames cs := fun c hc => (h c hc).1

theorem isName_followOne (h : ∀ d ∈ cs, IsName d) (hc : c ≠ [] ∧ slash ∉ c) :
    ∀ d ∈ followOne cs c, IsName d := by
  intro d hd
  unfold followOne at hd
  split at hd
  · exact h d hd
  · next hdot =>
    split at hd
    · exact h d (List.dropLast_subset cs hd)
    · next hdots =>
      rcases List.mem_append.1 hd with hd | hd
      · exact h d hd
      · rw [List.mem_singleton.1 hd]
        exact ⟨hc, hdot, hdots⟩

theorem isName_follow (h : ∀ d ∈ cs, IsName d) (hcomps : AreNames comps) :
    ∀ d ∈ follow cs comps, IsName d := by
  induction comps generalizing cs with
  | nil => exact h
  | cons c comps ih =>
    exact ih (isName_followOne h (hcomps c List.mem_cons_self)) fun d hd =>
      hcomps d (List.mem_cons_of_mem c hd)

theorem isName_tokens (h : Canonical c ∨ c = []) : ∀ d ∈ tokens c, IsName d := by
  rcases h with ⟨cs, hcs, rfl⟩ | rfl
  · rw [tokens_dirPath (areNames_of_isName hcs)]
    exact hcs
  · intro d hd
    cases hd

/-- **Where `cd` leads to is canonical.** -/
theorem canonical_cdTarget {cwd : Str} (h : Canonical cwd ∨ cwd = []) (path : Str) :
    Canonical (dirPath (cdTarget cwd path)) := by
  refine ⟨cdTarget cwd path, ?_, rfl⟩
  have hnil : ∀ d ∈ ([] : List Str), IsName d := by
    intro d hd
    cases hd
  unfold cdTarget
  split
  · exact hnil
  · refine isName_follow ?_ (areNames_tokens path)
    split
    · exact hnil
    · exact isName_tokens h

end Names

/-! ## The loop ends -/

/-- **Termination.**  Each turn uses up at least one byte of the string. -/
theorem cdLoop_ends {total fuel : Nat} {temp : PathBuf} {copied : List Nat} {save : Str}
    (hfuel : save.length < fuel) :
    CdLoop total temp copied save (cdLoop total fuel temp copied save) := by
  induction fuel generalizing temp copied save with
  | zero => omega
  | succ fuel ih =>
    rw [cdLoop]
    cases hstrtok : strtokR save [slash] with
    | none => exact .done hstrtok
    | some r =>
      obtain ⟨component, rest⟩ := r
      obtain ⟨-, hlt, -⟩ := tokens_of_strtokR_some hstrtok
      exact .turn hstrtok (ih (by omega))

/-! ## The text and the names -/

/-- The buffer holds the path of the directory, or nothing, which stands for the root. -/
def StandsFor (b : PathBuf) (cs : List Str) : Prop := b.text = dirPath cs ∨ b.text = [] ∧ cs = []

namespace StandsFor

variable {b : PathBuf} {cs comps : List Str} {c : Str}

/-- One component in front of an empty buffer: the dot leaves it empty. -/
theorem enter_nil (hb : b.text = []) (hin : b.Inside) (hc : c ≠ str ['.'])
    (hfits : (dirPath (followOne [] c)).length < vfsMaxPath) :
    (enter b c).text = dirPath (followOne [] c) ∧ (enter b c).Inside := by
  have hone : 1 < vfsMaxPath := by decide
  unfold enter followOne at *
  rw [if_neg hc] at *
  rw [if_neg hc]
  by_cases hdots : c = str ['.', '.']
  · have hroot : getParentDir b = b.root := by
      unfold getParentDir
      rw [hb, if_neg (by simp)]
      simp [slashEnd, hb]
    rw [if_pos hdots, if_pos hdots, hroot]
    refine ⟨rfl, ?_⟩
    intro x hx
    rcases List.mem_append.1 hx with hx | hx
    · exact hin x hx
    · have hlt : x ≤ 1 := by
        simp only [List.mem_cons, List.not_mem_nil, or_false] at hx
        omega
      exact Nat.lt_of_le_of_lt hlt hone
  · have hne : b.text ≠ [slash] := by
      rw [hb]
      simp
    rw [if_neg hdots] at hfits
    rw [if_neg hdots, if_neg hdots]
    have hslash : (b.strcat [slash]).text = [slash] := by
      rw [PathBuf.strcat, hb]
      rfl
    dsimp only
    rw [if_pos hne, dirPath_push, if_pos rfl]
    rw [dirPath_push, if_pos rfl, List.length_append] at hfits
    refine ⟨by rw [PathBuf.strcat, hslash]; rfl, ?_⟩
    rw [PathBuf.inside_strcat, PathBuf.inside_strcat, hslash, hb]
    exact ⟨⟨hin, hone⟩, hfits⟩

/-- **One component.** -/
theorem enter (h : StandsFor b cs) (hcs : AreNames cs) (hin : b.Inside) (c : Str)
    (hlen : (dirPath cs).length < vfsMaxPath)
    (hfits : (dirPath (followOne cs c)).length < vfsMaxPath) :
    StandsFor (enter b c) (followOne cs c) ∧ (OsArm.enter b c).Inside := by
  rcases h with hb | ⟨hb, rfl⟩
  · obtain ⟨htext, -, hinside⟩ := enter_spec hb hcs c
    exact ⟨Or.inl htext, (hinside hlen).2 ⟨hin, hfits⟩⟩
  · by_cases hc : c = str ['.']
    · have hstay : OsArm.enter b c = b := by rw [OsArm.enter, if_pos hc]
      have hroot : followOne [] c = [] := by rw [followOne, if_pos hc]
      rw [hstay, hroot]
      exact ⟨Or.inr ⟨hb, rfl⟩, hin⟩
    · obtain ⟨htext, hinside⟩ := enter_nil hb hin hc hfits
      exact ⟨Or.inl htext, hinside⟩

/-- **All components**, from the left. -/
theorem enterAll (h : StandsFor b cs) (hcs : AreNames cs) (hin : b.Inside) (hcomps : AreNames comps)
    (hfits : ∀ k, (dirPath (follow cs (comps.take k))).length < vfsMaxPath) :
    StandsFor (comps.foldl OsArm.enter b) (follow cs comps) ∧
      (comps.foldl OsArm.enter b).Inside := by
  induction comps generalizing b cs with
  | nil => exact ⟨h, hin⟩
  | cons c comps ih =>
    obtain ⟨hnext, hinside⟩ := h.enter hcs hin c (hfits 0) (hfits 1)
    exact ih hnext (hcs.followOne (hcomps c List.mem_cons_self)) hinside
      (fun d hd => hcomps d (List.mem_cons_of_mem c hd)) fun k => hfits (k + 1)

/-- An empty buffer that stands for the root is shorter than the path of it. -/
theorem length_le (h : StandsFor b cs) : b.text.length ≤ (dirPath cs).length := by
  rcases h with hb | ⟨hb, -⟩
  · rw [hb]
  · rw [hb]
    exact Nat.zero_le _

end StandsFor

/-! ## One command -/

section Command

variable {v : Vfs} {path : Str}

theorem dirPath_ne_nil (cs : List Str) : dirPath cs ≠ [] := by
  induction cs using List.reverseRecOn with
  | nil => exact List.cons_ne_nil slash []
  | append_singleton ds c _ =>
    rw [dirPath_concat]
    exact List.append_ne_nil_of_right_ne_nil _ (List.cons_ne_nil _ _)

/-- The working directory stands for its components. -/
theorem standsFor_cwd (h : Canonical v.cwd ∨ v.cwd = []) (l : List Nat) :
    StandsFor { text := v.cwd, stores := l } (tokens v.cwd) ∧ AreNames (tokens v.cwd) := by
  refine ⟨?_, areNames_tokens v.cwd⟩
  rcases h with ⟨cs, hcs, hcwd⟩ | hcwd
  · rw [hcwd, tokens_dirPath (areNames_of_isName hcs)]
    exact Or.inl rfl
  · rw [hcwd]
    exact Or.inr ⟨rfl, rfl⟩

/-- `cd ..` goes to the parent directory. -/
theorem cmdCd_parent (h : Canonical v.cwd ∨ v.cwd = []) (hlen : v.cwd.length < vfsMaxPath) :
    (∀ x ∈ (cmdCd v (str ['.', '.'])).2, x < vfsMaxPath) ∧
      ((cmdCd v (str ['.', '.'])).1.cwd = v.cwd ∨
        (cmdCd v (str ['.', '.'])).1.cwd = dirPath (cdTarget v.cwd (str ['.', '.']))) := by
  obtain ⟨b, hb⟩ : ∃ b : PathBuf, b = { text := v.cwd, stores := [] } := ⟨_, rfl⟩
  have hcd : cmdCd v (str ['.', '.']) =
      ({ v with cwd := (getParentDir b).text }, (getParentDir b).stores) := by
    rw [hb]
    rfl
  obtain ⟨hstands, hnames⟩ := standsFor_cwd h []
  rw [← hb] at hstands
  have hin : b.Inside := by
    intro x hx
    rw [hb] at hx
    cases hx
  have hshort : (dirPath (tokens v.cwd)).length < vfsMaxPath := by
    rcases hstands with htext | ⟨-, hnil⟩
    · rw [← htext, hb]
      exact hlen
    · rw [hnil]
      decide
  have hfollow : followOne (tokens v.cwd) (str ['.', '.']) = (tokens v.cwd).dropLast := rfl
  have hparent := Nat.lt_of_le_of_lt (dirPath_dropLast_length (tokens v.cwd)) hshort
  rw [← hfollow] at hparent
  obtain ⟨hnext, hinside⟩ := hstands.enter hnames hin _ hshort hparent
  rw [hcd]
  refine ⟨hinside, ?_⟩
  rcases hstands with htext | ⟨hnil, -⟩
  · exact Or.inr (getParentDir_spec htext hnames).1
  · rcases hnext with htext' | ⟨htext', -⟩
    · exact Or.inr htext'
    · have hcwd : v.cwd = [] := by
        rw [hb] at hnil
        exact hnil
      exact Or.inl (htext'.trans hcwd.symm)

/-- **One `cd`**: its stores are inside the buffers, and the working directory is as it was or the
one that was asked for. -/
theorem cmdCd_lands (h : Canonical v.cwd ∨ v.cwd = []) (hroom : CdRoom v path) :
    (∀ x ∈ (cmdCd v path).2, x < vfsMaxPath) ∧
      ((cmdCd v path).1.cwd = v.cwd ∨
        (cmdCd v path).1.cwd = dirPath (cdTarget v.cwd path)) := by
  obtain ⟨hlen, hroom⟩ := hroom
  by_cases hne : path = []
  · rw [hne]
    exact ⟨PathBuf.inside_root (s := []), Or.inr rfl⟩
  by_cases hdot : path = str ['.']
  · rw [hdot]
    exact ⟨fun x (hx : x ∈ []) => (by cases hx), Or.inl rfl⟩
  by_cases hdots : path = str ['.', '.']
  · rw [hdots]
    exact cmdCd_parent h hlen
  obtain ⟨hpath, ⟨hfits, hresolve⟩, hresolveNil⟩ := hroom hne hdot hdots
  rw [cmdCd, if_neg hne, if_neg hdot, if_neg hdots, cdTarget, if_neg hne]
  dsimp only at hfits hresolve ⊢
  -- the directory to start from
  generalize hstart : (if path.head? = some slash then [] else tokens v.cwd) = start
    at hfits hresolve ⊢
  generalize htemp : (if path.head? = some slash then
    ({ text := [], stores := [] } : PathBuf).root else PathBuf.copy v.cwd) = temp
  generalize hrest : (if path.head? = some slash then path.drop 1 else path) = rest
  have hstands : (StandsFor temp start ∧ AreNames start) ∧ temp.Inside ∧
      (temp.text = [] → v.cwd = []) := by
    rw [← htemp, ← hstart]
    split
    · refine ⟨⟨Or.inl rfl, fun c hc => by cases hc⟩, PathBuf.inside_root, fun hnil => ?_⟩
      cases hnil
    · exact ⟨standsFor_cwd h _, PathBuf.inside_copy.2 hlen, id⟩
  obtain ⟨⟨hstands, hnames⟩, hin, hempty⟩ := hstands
  have htokens : tokens rest = tokens path ∧ rest.length ≤ path.length := by
    rw [← hrest]
    split
    · next habs =>
      obtain ⟨t, rfl⟩ := List.head?_eq_some_iff.1 habs
      exact ⟨(tokens_slash t).symm, by simp⟩
    · exact ⟨rfl, Nat.le_refl _⟩
  -- the loop
  obtain ⟨hloop, hcopied⟩ := cdLoop_eq (b := temp) (Nat.lt_succ_self rest.length)
    (Nat.le_refl rest.length) (fun x hx => Nat.lt_succ_iff.1 (List.mem_range.1 hx))
  rw [htokens.1] at hloop
  obtain ⟨hend, hinside⟩ := hstands.enterAll hnames hin (areNames_tokens path) hfits
  have hkeep : (temp.text = dirPath start →
      ((tokens path).foldl OsArm.enter temp).text = dirPath (follow start (tokens path))) :=
    fun htext => (enterAll_spec htext hnames (areNames_tokens path)).1
  rw [← hloop] at hend hinside hkeep
  generalize cdLoop rest.length (rest.length + 1) temp (List.range (rest.length + 1)) rest = r
    at hend hcopied hinside hkeep
  -- nothing is left in the buffer only if there was nothing in it
  have hback : r.1.text = [] → v.cwd = [] := by
    intro hnil
    rcases hstands with htext | ⟨htext, -⟩
    · rw [hkeep htext] at hnil
      exact absurd hnil (dirPath_ne_nil _)
    · exact hempty htext
  have hshort : r.1.text.length < vfsMaxPath := by
    have hall := hfits (tokens path).length
    rw [List.take_length] at hall
    exact Nat.lt_of_le_of_lt hend.length_le hall
  have hresolved : (resolveBuf r.1.text v.ns).Inside := by
    rw [resolveBuf_inside]
    rcases hend with htext | ⟨htext, -⟩
    · rw [htext]
      exact hresolve
    · rw [htext]
      exact hresolveNil (hback htext)
  have hstores : ∀ x ∈ r.1.stores ++ r.2 ++ (resolveBuf r.1.text v.ns).stores, x < vfsMaxPath := by
    rw [List.forall_mem_append, List.forall_mem_append]
    refine ⟨⟨hinside, ?_⟩, hresolved⟩
    intro x hx
    have hle := hcopied x hx
    omega
  have hopen := vfsOpen_cwd v r.1.text
  split
  · exact ⟨hstores, Or.inl hopen⟩
  · refine ⟨List.forall_mem_append.2 ⟨hstores, PathBuf.inside_copy.2 hshort⟩, ?_⟩
    rcases hend with htext | ⟨htext, -⟩
    · exact Or.inr htext
    · exact Or.inl (htext.trans (hback htext).symm)

/-! ## All runs -/

/-- Whether the working directory has changed or not, it is canonical, or empty. -/
theorem canonical_next {w : Vfs} (h : Canonical v.cwd ∨ v.cwd = []) (hstep : cdLts.step v path w) :
    Canonical w.cwd ∨ w.cwd = [] := by
  obtain ⟨hroom, rfl⟩ := hstep
  rcases (cmdCd_lands h hroom).2 with hsame | htarget
  · rw [hsame]
    exact h
  · rw [htarget]
    exact Or.inl (canonical_cdTarget h path)

/-- **`cd` keeps the working directory canonical.**  Over every sequence of `cd` commands it is
canonical, or empty as a new process has it; and each of them comes to its end, stores inside its
buffers, and leaves the directory as it was or the canonical one that its components lead to. -/
theorem cd_canonical {tr : List Str} {w : Vfs} (h : Canonical v.cwd ∨ v.cwd = [])
    (hrun : cdLts.Run v tr w) :
    (Canonical w.cwd ∨ w.cwd = []) ∧
    (∀ rest temp copied, CdLoop rest.length temp copied rest
      (cdLoop rest.length (rest.length + 1) temp copied rest)) ∧
    ∀ path, CdRoom w path →
      (∀ x ∈ (cmdCd w path).2, x < vfsMaxPath) ∧
      Canonical (dirPath (cdTarget w.cwd path)) ∧
      ((cmdCd w path).1.cwd = w.cwd ∨ (cmdCd w path).1.cwd = dirPath (cdTarget w.cwd path)) := by
  have hw : Canonical w.cwd ∨ w.cwd = [] :=
    hrun.invariant (P := fun v => Canonical v.cwd ∨ v.cwd = [])
      (fun s path t hs hstep => canonical_next hs hstep) h
  refine ⟨hw, fun rest temp copied => cdLoop_ends (Nat.lt_succ_self _), ?_⟩
  intro path hroom
  obtain ⟨hstores, hland⟩ := cmdCd_lands hw hroom
  exact ⟨hstores, canonical_cdTarget hw path, hland⟩

/-- A new process goes to `/a`, by way of `/b`. -/
theorem cd_canonical_new : ∃ w,
    w = (cmdCd (vfsInit (fun _ => 0) []) (str ['b', '/', '.', '.', '/', 'a'])).1 ∧
    w.cwd = str ['/', 'a'] ∧ (Canonical w.cwd ∨ w.cwd = []) := by
  have hroom : CdRoom (vfsInit (fun _ => 0) []) (str ['b', '/', '.', '.', '/', 'a']) := by
    refine ⟨by decide, fun _ _ _ => ⟨by decide, ⟨?_, ?_⟩, ?_⟩⟩
    · intro k
      rcases k with _ | _ | _ | k
      · decide
      · decide
      · decide
      · rw [List.take_of_length_le (by
          rw [show (tokens (str ['b', '/', '.', '.', '/', 'a'])).length = 3 from rfl]
          omega)]
        decide
    · show List.length _ < vfsMaxPath
      decide
    · intro _
      show List.length _ < vfsMaxPath
      decide
  obtain ⟨w, hw⟩ : ∃ w, w =
      (cmdCd (vfsInit (fun _ => 0) []) (str ['b', '/', '.', '.', '/', 'a'])).1 :=
    ⟨_, rfl⟩
  have hcwd : w.cwd = str ['/', 'a'] := by
    rw [hw]
    decide +kernel
  have hrun : cdLts.Run (vfsInit (fun _ => 0) []) ([] ++ [str ['b', '/', '.', '.', '/', 'a']]) w :=
    .snoc .nil ⟨hroom, hw⟩
  exact ⟨w, hw, hcwd, (cd_canonical (Or.inr rfl) hrun).1⟩

end Command

end OsArm
