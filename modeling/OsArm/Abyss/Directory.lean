import OsArm.Abyss.Basic
import OsArm.Lib.Records

/-!
# The root directory block of AbyssFS

What a directory block holds, as a chain of records (`dirFormat`), and what the
walks and updates of `abyssfs.c` do to it:

* `findEntry_some`, `findEntry_none`, `readEntries_chain`, `lastEntry_chain` —
  the three walks, on any chain that is terminated by a zero length.
* `RootDir` — the invariant of the root block: the two records `"."` and `".."`,
  then the entries, each exactly as long as its name needs, then a zero length
  inside the block.  `".."` may still have the length 248 that `abyssfs_init`
  gives it, as long as there is no entry.
* `RootDir.create`, `RootDir.remove` — `create_file` appends an entry and
  `abyssfs_unlink` takes one out, whatever stale bytes lie behind the chain.
-/

namespace OsArm

open RecordFormat (chain_append)

/-! ## Records -/

/-- A record of a directory block; the fields that are proofs say that it can be
stored and that its name stays inside it. -/
structure DirRecord where
  inode : Nat
  name : Str
  size : Nat
  inode_lt : inode < 2 ^ 32
  name_nul : NulFree name
  name_fits : dirEntryFixedSize + name.length + 1 ≤ size
  size_lt : size < 256

/-- A name is short enough for every walk over it. -/
theorem DirRecord.name_lt_walkFuel (r : DirRecord) : r.name.length < walkFuel := by
  have hfits := r.name_fits
  have hsize := r.size_lt
  simp only [walkFuel, heapSize]
  omega

/-- Directory records as a record format. -/
def dirFormat : RecordFormat DirRecord where
  len r := r.size
  Stored m a r := m.word a = r.inode ∧ nameLen m a = r.name.length ∧ recLen m a = r.size ∧
    m.CStringAt (nameAddr a) r.name
  len_pos r := by
    have := r.name_fits
    omega
  stored_move := by
    rintro m m' a b r ⟨hi, hn, hr, hs⟩ h
    have hf := r.name_fits
    unfold dirEntryFixedSize at hf
    refine ⟨?_, ?_, ?_, hs.move fun i hi => ?_⟩
    · rw [ByteMem.word_congr fun i hi => h i (by omega), hi]
    · rw [nameLen, h 4 (by omega)]
      exact hn
    · rw [recLen, h 5 (by omega)]
      exact hr
    · have := h (6 + i) (by omega)
      rwa [← Nat.add_assoc, ← Nat.add_assoc] at this

@[simp] theorem dirFormat_len (r : DirRecord) : dirFormat.len r = r.size := rfl

/-- What `abyssfs_read_dir` reports of a record. -/
def DirRecord.toDirent (r : DirRecord) : Dirent := { inode := r.inode, name := r.name }

theorem DirRecord.size_pos (r : DirRecord) : 0 < r.size := dirFormat.len_pos r

/-- Records are told apart by `strcmp`. -/
theorem strcmp_stored {m : ByteMem} {a : Nat} {r : DirRecord} {name : Str}
    (h : dirFormat.Stored m a r) (hn : NulFree name) :
    strcmp m (nameAddr a) name = 0 ↔ r.name = name := by
  rw [strcmp_eq_zero_iff hn]
  constructor
  · intro h'
    exact h.2.2.2.unique h' r.name_nul hn
  · rintro rfl
    exact h.2.2.2

/-! ## Walks -/

section Walks

variable {m : ByteMem} {a : Nat} {rs : List DirRecord}

/-- A walk that meets no record of the name ends at the terminator. -/
theorem findEntry_none {name : Str} {fuel : Nat} (h : dirFormat.Chain m a rs)
    (hend : recLen m (a + dirFormat.span rs) = 0) (hn : NulFree name)
    (hne : ∀ r ∈ rs, r.name ≠ name) (hf : rs.length < fuel) :
    findEntry m name fuel a = none := by
  induction rs generalizing a fuel with
  | nil =>
    obtain ⟨f, rfl⟩ : ∃ f, fuel = f + 1 := ⟨fuel - 1, by simp at hf; omega⟩
    simp only [RecordFormat.span_nil, Nat.add_zero] at hend
    rw [findEntry, if_neg (by omega)]
  | cons r rs ih =>
    obtain ⟨f, rfl⟩ : ∃ f, fuel = f + 1 := ⟨fuel - 1, by simp at hf; omega⟩
    have hlen : recLen m a = r.size := h.1.2.2.1
    have hpos := r.size_pos
    have hcmp : strcmp m (nameAddr a) name ≠ 0 := by
      rw [Ne, strcmp_stored h.1 hn]
      exact hne r (by simp)
    rw [findEntry, if_pos (by omega), if_neg hcmp, hlen]
    refine ih h.2 ?_ (fun q hq => hne q (List.mem_cons_of_mem _ hq)) (by simp at hf; omega)
    rwa [RecordFormat.span_cons, ← Nat.add_assoc] at hend

/-- A walk stops at the first record of the name. -/
theorem findEntry_some {name : Str} {fuel : Nat} {r : DirRecord} {ts : List DirRecord}
    (h : dirFormat.Chain m a (rs ++ r :: ts)) (hn : NulFree name)
    (hne : ∀ q ∈ rs, q.name ≠ name) (hr : r.name = name) (hf : rs.length < fuel) :
    findEntry m name fuel a = some (a + dirFormat.span rs) := by
  induction rs generalizing a fuel with
  | nil =>
    obtain ⟨f, rfl⟩ : ∃ f, fuel = f + 1 := ⟨fuel - 1, by simp at hf; omega⟩
    have hlen : recLen m a = r.size := h.1.2.2.1
    have hpos := r.size_pos
    rw [findEntry, if_pos (by omega), if_pos ((strcmp_stored h.1 hn).2 hr)]
    rfl
  | cons q rs ih =>
    obtain ⟨f, rfl⟩ : ∃ f, fuel = f + 1 := ⟨fuel - 1, by simp at hf; omega⟩
    have hlen : recLen m a = q.size := h.1.2.2.1
    have hpos := q.size_pos
    have hcmp : strcmp m (nameAddr a) name ≠ 0 := by
      rw [Ne, strcmp_stored h.1 hn]
      exact hne q (by simp)
    have htail : dirFormat.Chain m (a + q.size) (rs ++ r :: ts) := h.2
    rw [findEntry, if_pos (by omega), if_neg hcmp, hlen,
      ih htail (fun p hp => hne p (List.mem_cons_of_mem _ hp)) (by simp at hf; omega),
      RecordFormat.span_cons, dirFormat_len, Nat.add_assoc]

/-- A listing with room for `c` entries shows the first `c` records. -/
theorem readEntries_chain {c : Nat} (h : dirFormat.Chain m a rs)
    (hend : recLen m (a + dirFormat.span rs) = 0) :
    readEntries m c a = (rs.map DirRecord.toDirent).take c := by
  induction rs generalizing a c with
  | nil =>
    simp only [RecordFormat.span_nil, Nat.add_zero] at hend
    cases c with
    | zero => rfl
    | succ c => rw [readEntries, if_neg (by omega), List.map_nil, List.take_nil]
  | cons r rs ih =>
    cases c with
    | zero => rfl
    | succ c =>
      obtain ⟨hino, -, hlen, hstr⟩ := h.1
      have hpos := r.size_pos
      have htail : dirFormat.Chain m (a + r.size) rs := h.2
      rw [RecordFormat.span_cons, dirFormat_len, ← Nat.add_assoc] at hend
      rw [readEntries, if_pos (by omega), hino, hstr.cstring_eq r.name_nul r.name_lt_walkFuel, hlen,
        ih htail hend]
      rfl

/-- The walk of `create_file` passes every record and remembers the last one. -/
theorem lastEntry_chain {blockEnd fuel : Nat} {prev : Option Nat} {r : DirRecord}
    (h : dirFormat.Chain m a (rs ++ [r]))
    (hend : recLen m (a + dirFormat.span (rs ++ [r])) = 0)
    (hblock : a + dirFormat.span (rs ++ [r]) ≤ blockEnd) (hf : rs.length + 1 < fuel) :
    (lastEntry m blockEnd fuel a prev).2 = some (a + dirFormat.span rs) := by
  induction rs generalizing a fuel prev with
  | nil =>
    obtain ⟨f, rfl⟩ : ∃ f, fuel = f + 2 := ⟨fuel - 2, by simp at hf; omega⟩
    have hlen : recLen m a = r.size := h.1.2.2.1
    have hpos := r.size_pos
    simp only [List.nil_append, RecordFormat.span_cons, RecordFormat.span_nil, dirFormat_len,
      Nat.add_zero] at hend hblock
    rw [lastEntry, if_pos (by omega), hlen, lastEntry, if_neg (by omega)]
    rfl
  | cons q rs ih =>
    obtain ⟨f, rfl⟩ : ∃ f, fuel = f + 1 := ⟨fuel - 1, by simp at hf; omega⟩
    have hlen : recLen m a = q.size := h.1.2.2.1
    have hpos := q.size_pos
    rw [List.cons_append, RecordFormat.span_cons, dirFormat_len, ← Nat.add_assoc] at hend hblock
    have hspan := dirFormat.span_append rs [r]
    have htail : dirFormat.Chain m (a + q.size) (rs ++ [r]) := h.2
    rw [lastEntry, if_pos (by omega), hlen, ih htail hend hblock (by simp at hf; omega),
      RecordFormat.span_cons, dirFormat_len, Nat.add_assoc]

end Walks

/-! ## Record lengths -/

/-- The length of a record whose name has `len` bytes: `7 + len` rounded up to a
multiple of 4. -/
def recSize (len : Nat) : Nat := (7 + len + 3) / 4 * 4

/-- The 8-bit arithmetic of `round_up` is exact for names of at most 245 bytes. -/
theorem minRecLen_eq {len : Nat} (h : len ≤ 245) : minRecLen len = recSize len := by
  have hall : ∀ i : Fin 246, minRecLen i = recSize i := by decide +kernel
  exact hall ⟨len, by omega⟩

theorem recSize_lt {len : Nat} (h : len ≤ 245) : recSize len < 256 := by
  unfold recSize
  omega

theorem le_recSize (len : Nat) : dirEntryFixedSize + len + 1 ≤ recSize len := by
  unfold recSize dirEntryFixedSize
  omega

/-- The record `create_file` writes for an entry. -/
def entryRecord (name : Str) (inode : Nat) (hn : NulFree name) (hl : name.length ≤ 245)
    (hi : inode < 2 ^ 32) : DirRecord where
  inode := inode
  name := name
  size := recSize name.length
  inode_lt := hi
  name_nul := hn
  name_fits := le_recSize name.length
  size_lt := recSize_lt hl

@[simp] theorem entryRecord_inode {name : Str} {inode : Nat} {hn : NulFree name}
    {hl : name.length ≤ 245} {hi : inode < 2 ^ 32} :
    (entryRecord name inode hn hl hi).inode = inode := rfl

@[simp] theorem entryRecord_name {name : Str} {inode : Nat} {hn : NulFree name}
    {hl : name.length ≤ 245} {hi : inode < 2 ^ 32} :
    (entryRecord name inode hn hl hi).name = name := rfl

theorem entryRecord_congr {name name' : Str} {inode : Nat} {hn : NulFree name}
    {hl : name.length ≤ 245} {hi : inode < 2 ^ 32} (h : name = name') :
    entryRecord name inode hn hl hi = entryRecord name' inode (h ▸ hn) (h ▸ hl) hi := by
  subst h
  rfl

/-- A record that is as long as its name needs. -/
def DirRecord.Exact (r : DirRecord) : Prop := r.name.length ≤ 245 ∧ r.size = recSize r.name.length

/-! ## Stores -/

theorem putEntry_outside {m : ByteMem} {e i len rec x : Nat} {name : Str}
    (h : x < e ∨ e + 7 + name.length ≤ x) : putEntry m e i len rec name x = m x := by
  rw [putEntry, strcpy_eq, ByteMem.blit_outside (by unfold nameAddr dirEntryFixedSize; omega),
    ByteMem.set_of_ne (by omega), ByteMem.set_of_ne (by omega),
    ByteMem.setWord_outside (by omega)]

/-- The header of a record, under stores that leave it alone. -/
theorem stored_of_header {m m' : ByteMem} {e : Nat} {r : DirRecord}
    (hm : ∀ x < e + 6, m' x = (((m.setWord e r.inode).set (e + 4)
      (UInt8.ofNat r.name.length)).set (e + 5) (UInt8.ofNat r.size)) x)
    (hs : m'.CStringAt (nameAddr e) r.name) : dirFormat.Stored m' e r := by
  have hlt := r.size_lt
  have hfit := r.name_fits
  refine ⟨?_, ?_, ?_, hs⟩
  · have hw : m'.word e = (m.setWord e r.inode).word e := by
      refine ByteMem.word_congr ?_
      intro i hi
      rw [hm _ (by omega), ByteMem.set_of_ne (by omega), ByteMem.set_of_ne (by omega)]
    rw [hw, ByteMem.word_setWord, Nat.mod_eq_of_lt r.inode_lt]
  · rw [nameLen, hm _ (by omega), ByteMem.set_of_ne (by omega), ByteMem.set_self,
      UInt8.toNat_ofNat', Nat.mod_eq_of_lt (by omega)]
  · rw [recLen, hm _ (by omega), ByteMem.set_self, UInt8.toNat_ofNat', Nat.mod_eq_of_lt (by omega)]

theorem putEntry_stored {m : ByteMem} {e : Nat} {r : DirRecord} :
    dirFormat.Stored (putEntry m e r.inode r.name.length r.size r.name) e r := by
  refine stored_of_header (m := m) (fun x hx => ?_) (cstringAt_strcpy _ _ _)
  rw [putEntry, strcpy_eq, ByteMem.blit_outside (by unfold nameAddr dirEntryFixedSize; omega)]

/-- `create_file` writes from the header to the terminator of what is stored of the name. -/
theorem writeEntry_frame {m : ByteMem} {e i x : Nat} {name : Str}
    (h : x < e ∨ e + 7 + name.length % 256 ≤ x) : writeEntry m e i name x = m x := by
  simp only [writeEntry, nameAddr, dirEntryFixedSize]
  rw [ByteMem.set_of_ne (by omega), memcpyTo_eq, ByteMem.blit_outside (by omega),
    ByteMem.set_of_ne (by omega), ByteMem.set_of_ne (by omega),
    ByteMem.setWord_outside (by omega)]

theorem writeEntry_outside {m : ByteMem} {e i x : Nat} {name : Str} (hl : name.length ≤ 245)
    (h : x < e ∨ e + 7 + name.length ≤ x) : writeEntry m e i name x = m x := by
  have hmod : name.length % 256 = name.length := Nat.mod_eq_of_lt (by omega)
  exact writeEntry_frame (by rwa [hmod])

/-- Of a name as many bytes are stored as `name_len` says. -/
theorem writeEntry_take (m : ByteMem) (e i : Nat) (name : Str) :
    writeEntry m e i (name.take (name.length % 256)) = writeEntry m e i name := by
  have hle : name.length % 256 ≤ name.length := Nat.mod_le _ _
  have hlen : (name.take (name.length % 256)).length % 256 = name.length % 256 := by
    rw [List.length_take, Nat.min_eq_left hle, Nat.mod_mod]
  have hcopy : ∀ m' : ByteMem, ∀ a, memcpyTo m' a (name.take (name.length % 256))
    (name.length % 256) =
      memcpyTo m' a name (name.length % 256) := by
    intro m' a
    rw [memcpyTo_eq, memcpyTo_eq]
    refine ByteMem.blit_congr ?_
    intro k hk
    simp [hk]
  simp only [writeEntry, hlen, hcopy]

/-- The length `create_file` writes. -/
theorem recLen_writeEntry (m : ByteMem) (e i : Nat) (name : Str) :
    recLen (writeEntry m e i name) e = minRecLen (name.length % 256) := by
  have hlt : minRecLen (name.length % 256) < 256 := Nat.mod_lt _ (by omega)
  simp only [writeEntry, recLen, nameAddr, dirEntryFixedSize]
  rw [ByteMem.set_of_ne (by omega), memcpyTo_eq, ByteMem.blit_outside (by omega), ByteMem.set_self,
    UInt8.toNat_ofNat', Nat.mod_eq_of_lt hlt]

/-- For names of 246 to 249 bytes the 8-bit arithmetic gives 0. -/
theorem minRecLen_eq_zero {len : Nat} (h : 245 < len) (h' : len ≤ 249) : minRecLen len = 0 := by
  have hall : ∀ i : Fin 4, minRecLen (246 + i) = 0 := by decide +kernel
  have := hall ⟨len - 246, by omega⟩
  rwa [show 246 + (len - 246) = len by omega] at this

/-- `create_file` stores the record of the entry. -/
theorem writeEntry_stored {m : ByteMem} {e : Nat} {name : Str} {inode : Nat} (hn : NulFree name)
    (hl : name.length ≤ 245) (hi : inode < 2 ^ 32) :
    dirFormat.Stored (writeEntry m e inode name) e (entryRecord name inode hn hl hi) := by
  have hmod : name.length % 256 = name.length := Nat.mod_eq_of_lt (by omega)
  refine stored_of_header (m := m) (fun x hx => ?_) ⟨?_, ?_⟩
  · simp only [writeEntry, hmod, nameAddr, dirEntryFixedSize, entryRecord]
    rw [ByteMem.set_of_ne (by omega), memcpyTo_eq, ByteMem.blit_outside (by omega),
      minRecLen_eq hl]
  · intro i hi'
    simp only [entryRecord] at hi' ⊢
    simp only [writeEntry, hmod]
    rw [ByteMem.set_of_ne (by omega), memcpyTo_eq, ByteMem.blit_add hi',
      List.getD_eq_getElem _ _ hi']
  · simp only [writeEntry, hmod, entryRecord]
    exact ByteMem.set_self _ _ _

/-- What `create_file` does to the record it found last: the bytes of the record
stay, its length becomes minimal, and the rest of the block is zero. -/
theorem shrinkEntry_spec {m : ByteMem} {prev blockEnd min : Nat}
    (hmin : minRecLen (nameLen m prev) = min) (h8 : 6 ≤ min) (hlt : min < 256)
    (hb : prev + min ≤ blockEnd) (hbig : blockEnd < 2 ^ 64) :
    (∀ x < prev + min, x ≠ prev + 5 → shrinkEntry m prev blockEnd x = m x) ∧
      recLen (shrinkEntry m prev blockEnd) prev = min ∧
      ∀ x, prev + min ≤ x → x < blockEnd → shrinkEntry m prev blockEnd x = 0 := by
  have hsize : (2 ^ 64 + blockEnd - (prev + min)) % 2 ^ 64 = blockEnd - (prev + min) := by omega
  simp only [shrinkEntry, hmin, hsize, memset_eq]
  refine ⟨?_, ?_, ?_⟩
  · intro x hx hne
    rw [ByteMem.blit_outside (by omega), ByteMem.set_of_ne hne]
  · rw [recLen, ByteMem.blit_outside (by omega), ByteMem.set_self, UInt8.toNat_ofNat',
      Nat.mod_eq_of_lt (by omega)]
  · intro x hx hxe
    rw [ByteMem.blit_inside hx (by omega)]

section Append

variable {m m' : ByteMem} {a blockEnd prev : Nat} {rs : List DirRecord} {last last' : DirRecord}

/-- **Shrinking the last record** to its minimal length keeps the chain, whatever is
stored behind it. -/
theorem chain_shrink (m' : ByteMem) (h : dirFormat.Chain m a (rs ++ [last]))
    (hname : last'.name = last.name) (hinode : last'.inode = last.inode) (hexact : last'.Exact)
    (hroom : a + dirFormat.span rs + last'.size + 6 ≤ blockEnd) (hbig : blockEnd < 2 ^ 64)
    (hprev : prev = a + dirFormat.span rs)
    (hm' : ∀ x < prev + last'.size, m' x = shrinkEntry m prev blockEnd x) :
    minRecLen (nameLen m prev) = last'.size ∧ dirFormat.Chain m' a (rs ++ [last']) ∧
      ∀ x < a, m' x = m x := by
  subst hprev
  obtain ⟨hpre, hlast, -⟩ := chain_append.1 h
  obtain ⟨hword, hnlen, -, hstr⟩ := hlast
  have hpos := last'.size_pos
  have hfit := last'.name_fits
  have hlt := last'.size_lt
  unfold dirEntryFixedSize at hfit
  have hmin : minRecLen (nameLen m (a + dirFormat.span rs)) = last'.size := by
    rw [hnlen, ← hname, minRecLen_eq hexact.1, hexact.2]
  obtain ⟨hkeep, hrec, -⟩ := shrinkEntry_spec hmin (by omega) hlt (by omega) hbig
  -- what the update leaves of the old block
  have hlow : ∀ x < a + dirFormat.span rs + last'.size, x ≠ a + dirFormat.span rs + 5 →
      m' x = m x := by
    intro x hx hne
    rw [hm' x hx, hkeep x hx hne]
  have hlast' : dirFormat.Stored m' (a + dirFormat.span rs) last' := by
    refine ⟨?_, ?_, ?_, ?_⟩
    · rw [ByteMem.word_congr fun i hi => hlow _ (by omega) (by omega), hword, hinode]
    · rw [nameLen, hlow _ (by omega) (by omega), hname]
      exact hnlen
    · rw [recLen, hm' _ (by omega)]
      exact hrec
    · rw [hname] at hfit ⊢
      exact hstr.move fun i hi => hlow _ (by unfold nameAddr dirEntryFixedSize; omega)
        (by unfold nameAddr dirEntryFixedSize; omega)
  exact ⟨hmin, chain_append.2 ⟨hpre.frame fun x _ hx => hlow x (by omega) (by omega), hlast',
    trivial⟩, fun x hx => hlow x (by omega) (by omega)⟩

/-- Behind the block `shrinkEntry` changes nothing. -/
theorem shrinkEntry_outside {min x : Nat} (hmin : minRecLen (nameLen m prev) = min) (h8 : 6 ≤ min)
    (hb : prev + min ≤ blockEnd) (hbig : blockEnd < 2 ^ 64) (hx : blockEnd ≤ x) :
    shrinkEntry m prev blockEnd x = m x := by
  have hsize : (2 ^ 64 + blockEnd - (prev + min)) % 2 ^ 64 = blockEnd - (prev + min) := by omega
  rw [shrinkEntry, hmin, hsize, memset_eq, ByteMem.blit_outside (by omega),
    ByteMem.set_of_ne (by omega)]

/-- **Appending an entry.**  Shrinking the last record and writing the new one
behind it extends the chain; the bytes up to the end of the block are zero
behind the new record, so the chain is terminated again. -/
theorem chain_append_entry {inode : Nat} {name : Str} (h : dirFormat.Chain m a (rs ++ [last]))
    (hname : last'.name = last.name) (hinode : last'.inode = last.inode) (hexact : last'.Exact)
    (hn : NulFree name) (hl : name.length ≤ 245) (hi : inode < 2 ^ 32)
    (hroom : a + dirFormat.span rs + last'.size + recSize name.length + 6 ≤ blockEnd)
    (hbig : blockEnd < 2 ^ 64) (hprev : prev = a + dirFormat.span rs)
    (hm' : m' = writeEntry (shrinkEntry m prev blockEnd) (prev + minRecLen (nameLen m prev))
      inode name) :
    dirFormat.Chain m' a (rs ++ [last', entryRecord name inode hn hl hi]) ∧
      recLen m' (prev + last'.size + recSize name.length) = 0 ∧
      ∀ x, x < a ∨ blockEnd ≤ x → m' x = m x := by
  have hsize := le_recSize name.length
  have hfit := last'.name_fits
  have hlt := last'.size_lt
  unfold dirEntryFixedSize at hsize hfit
  have hmin : minRecLen (nameLen m prev) = last'.size := by
    rw [hprev, (chain_append.1 h).2.1.2.1, ← hname, minRecLen_eq hexact.1, hexact.2]
  rw [hmin] at hm'
  obtain ⟨-, hchain, hbelow⟩ := chain_shrink m' h hname hinode hexact (by omega) hbig hprev
    fun x hx => by rw [hm', writeEntry_outside hl (by omega)]
  obtain ⟨-, -, hzero⟩ := shrinkEntry_spec hmin (by omega) hlt (by omega) hbig
  obtain ⟨hpre, hlast, -⟩ := chain_append.1 hchain
  have hnew : dirFormat.Stored m' (a + dirFormat.span rs + last'.size)
      (entryRecord name inode hn hl hi) := by
    rw [hm', hprev]
    exact writeEntry_stored hn hl hi
  refine ⟨chain_append.2 ⟨hpre, hlast, hnew, trivial⟩, ?_, ?_⟩
  · rw [recLen, hm', writeEntry_outside hl (by omega), hzero _ (by omega) (by omega)]
    rfl
  · intro x hx
    rcases hx with hx | hx
    · exact hbelow x hx
    · rw [hm', writeEntry_outside hl (by omega)]
      exact shrinkEntry_outside hmin (by omega) (by omega) hbig hx

end Append

/-! ## Taking a record out -/

/-- **Taking a record out** of a terminated chain inside the block at `a`: both branches of
`abyssfs_unlink` close the gap, what is behind the record moves down. -/
theorem removeEntry_spec {m : ByteMem} {a dir : Nat} {us ts : List DirRecord} {r : DirRecord}
    (hchain : dirFormat.Chain m a (us ++ r :: ts))
    (hstop : recLen m (a + dirFormat.span (us ++ r :: ts)) = 0)
    (hfits : dirFormat.span (us ++ r :: ts) + 6 ≤ blockSize) (hdir : dir = a + dirFormat.span us) :
    dirFormat.Chain (removeEntry m a dir) a (us ++ ts) ∧
      recLen (removeEntry m a dir) (a + dirFormat.span (us ++ ts)) = 0 ∧
      ∀ x, x < a ∨ a + blockSize ≤ x → removeEntry m a dir x = m x := by
  have hrec : recLen m dir = r.size := by
    rw [hdir]
    exact hchain.stored.2.2.1
  have hpos := r.size_pos
  have hmin := r.name_fits
  unfold dirEntryFixedSize at hmin
  rw [RecordFormat.span_append, RecordFormat.span_cons, dirFormat_len] at hfits hstop
  suffices key : (∀ x, x < dir ∨ a + blockSize ≤ x → removeEntry m a dir x = m x) ∧
      (∀ i < dirFormat.span ts, removeEntry m a dir (dir + i) = m (dir + r.size + i)) ∧
      recLen (removeEntry m a dir) (dir + dirFormat.span ts) = 0 by
    obtain ⟨hout, hmove, hstop'⟩ := key
    refine ⟨hchain.remove (fun x _ hx => hout x (by omega)) (fun i hi => ?_), ?_,
      fun x hx => hout x (by omega)⟩
    · rw [← hdir]
      exact hmove i hi
    · rw [RecordFormat.span_append, ← Nat.add_assoc, ← hdir]
      exact hstop'
  cases ts with
  | nil =>
    -- the last entry is overwritten with zeros
    have hnext : recLen m (dir + r.size) = 0 := by
      rw [RecordFormat.span_nil] at hstop
      rw [hdir, ← hstop]
      exact congrArg (recLen m) (by omega)
    have hrem : removeEntry m a dir = m.blit dir r.size fun _ => 0 := by
      rw [removeEntry, hrec, if_neg (by omega), memset_eq]
    rw [hrem]
    rw [RecordFormat.span_nil] at hfits ⊢
    refine ⟨fun x hx => ByteMem.blit_outside (by omega), fun i hi => absurd hi (by omega), ?_⟩
    rw [recLen, ByteMem.blit_inside (by omega) (by omega)]
    rfl
  | cons q ts =>
    -- the rest of the block is moved down over the entry
    have hrest := (chain_append.1 hchain).2.2
    rw [dirFormat_len, ← hdir] at hrest
    have hnext : recLen m (dir + r.size) = q.size := hrest.1.2.2.1
    have hqpos := q.size_pos
    have hcount : (2 ^ 64 + blockSize - (dir + r.size - a)) % 2 ^ 64 =
        blockSize - (dirFormat.span us + r.size) := by
      rw [blockSize] at hfits ⊢
      omega
    have hrem : removeEntry m a dir =
        m.blit dir (blockSize - (dirFormat.span us + r.size)) fun i => m (dir + r.size + i) := by
      rw [removeEntry, hrec, if_pos (by omega), hcount, memmove_eq]
    rw [hrem]
    refine ⟨fun x hx => ByteMem.blit_outside (by omega),
      fun i hi => ByteMem.blit_add (by omega), ?_⟩
    rw [recLen, ByteMem.blit_inside (by omega) (by omega), ← hstop, recLen]
    exact congrArg (fun x => (m x).toNat) (by omega)

/-! ## The records of the root block -/

/-- The address of the root block. -/
def rootAddr : Nat := rootBlock * blockSize

@[simp] theorem rootAddr_eq : rootAddr = 36864 := rfl

/-- The record `"."` of the root. -/
def dot : DirRecord where
  inode := 1
  name := str ['.']
  size := 8
  inode_lt := by decide
  name_nul := by unfold NulFree; decide
  name_fits := by decide
  size_lt := by decide

/-- The record `".."` of the root, as `abyssfs_init` writes it or shrunk by the
first `create_file`. -/
def dotdot (fresh : Bool) : DirRecord where
  inode := 1
  name := str ['.', '.']
  size := if fresh then 248 else 12
  inode_lt := by decide
  name_nul := by unfold NulFree; decide
  name_fits := by cases fresh <;> decide
  size_lt := by cases fresh <;> decide

/-- All records of the root block. -/
def rootRecords (fresh : Bool) (rs : List DirRecord) : List DirRecord := dot :: dotdot fresh :: rs

theorem span_rootRecords (rs : List DirRecord) :
    dirFormat.span (rootRecords false rs) = 20 + dirFormat.span rs := by
  rw [rootRecords, RecordFormat.span_cons, RecordFormat.span_cons, dirFormat_len, dirFormat_len,
    ← Nat.add_assoc]
  rfl

/-! ## A directory block -/

/-- The record `"."` of the directory with inode `ino`. -/
def selfDot (ino : Nat) (hino : ino < 2 ^ 32) : DirRecord where
  inode := ino
  name := str ['.']
  size := 8
  inode_lt := hino
  name_nul := by unfold NulFree; decide
  name_fits := by decide
  size_lt := by decide

/-- All records of a directory block. -/
def dirRecords (ino : Nat) (hino : ino < 2 ^ 32) (fresh : Bool) (rs : List DirRecord) :
    List DirRecord := selfDot ino hino :: dotdot fresh :: rs

theorem span_dirRecords {ino : Nat} (hino : ino < 2 ^ 32) (rs : List DirRecord) :
    dirFormat.span (dirRecords ino hino false rs) = 20 + dirFormat.span rs := by
  rw [dirRecords, RecordFormat.span_cons, RecordFormat.span_cons, dirFormat_len, dirFormat_len,
    ← Nat.add_assoc]
  rfl

/-- **The invariant of a directory block** at `addr`: `rs` are the entries of the
directory with inode `ino`. -/
structure DirBlock (m : ByteMem) (addr ino : Nat) (rs : List DirRecord) : Prop where
  ino_lt : ino < 2 ^ 32
  /-- Records and terminator; `".."` is long only in a directory without entries. -/
  chain : ∃ fresh, (fresh = true → rs = []) ∧
    dirFormat.Chain m addr (dirRecords ino ino_lt fresh rs) ∧
    recLen m (addr + dirFormat.span (dirRecords ino ino_lt fresh rs)) = 0
  /-- Entries are as long as their names need. -/
  exact : ∀ r ∈ rs, r.Exact
  /-- The terminator lies inside the block. -/
  fits : 20 + dirFormat.span rs ≤ 4088

namespace DirBlock

variable {m m' : ByteMem} {addr ino : Nat} {rs ts : List DirRecord} {r : DirRecord}

/-- The records take up less than the block, with what a walk reads of the terminator. -/
theorem span_lt (h : DirBlock m addr ino rs) {fresh : Bool} (hfresh : fresh = true → rs = []) :
    dirFormat.span (dirRecords ino h.ino_lt fresh rs) + 5 < blockSize := by
  have hfits := h.fits
  cases fresh with
  | false => rw [span_dirRecords, blockSize]; omega
  | true =>
    obtain rfl := hfresh rfl
    simp [dirRecords, selfDot, dotdot, blockSize]

/-- The invariant is about the bytes of the block only. -/
theorem frame (h : DirBlock m addr ino rs)
    (hm : ∀ x, addr ≤ x → x < addr + blockSize → m' x = m x) : DirBlock m' addr ino rs := by
  obtain ⟨fresh, hfresh, hchain, hend⟩ := h.chain
  have hlen := h.span_lt hfresh
  refine ⟨h.ino_lt, ⟨fresh, hfresh, hchain.frame fun x hx hx' => hm x hx (by omega), ?_⟩, h.exact,
    h.fits⟩
  rw [recLen, hm _ (by omega) (by omega)]
  exact hend

/-- The listing of the block. -/
theorem readEntries_eq (h : DirBlock m addr ino rs) (c : Nat) :
    readEntries m c addr =
      ((dirRecords ino h.ino_lt false rs).map DirRecord.toDirent).take c := by
  obtain ⟨fresh, -, hchain, hend⟩ := h.chain
  rw [readEntries_chain hchain hend]
  rfl

/-- There is room for the walks. -/
theorem length_lt_walkFuel (h : DirBlock m addr ino rs) (fresh : Bool) :
    (dirRecords ino h.ino_lt fresh rs).length < walkFuel := by
  have h1 := dirFormat.length_le_span rs
  have h2 := h.fits
  simp only [dirRecords, List.length_cons, walkFuel, heapSize]
  omega

/-- The names of the records do not depend on the length of `".."`. -/
theorem exists_of_mem {hino : ino < 2 ^ 32} {fresh : Bool} (hr : r ∈ dirRecords ino hino fresh rs) :
    ∃ q ∈ dirRecords ino hino false rs, q.name = r.name := by
  rcases List.mem_cons.1 hr with rfl | hr
  · exact ⟨_, List.mem_cons_self, rfl⟩
  · rcases List.mem_cons.1 hr with rfl | hr
    · exact ⟨dotdot false, List.mem_cons_of_mem _ List.mem_cons_self, rfl⟩
    · exact ⟨r, List.mem_cons_of_mem _ (List.mem_cons_of_mem _ hr), rfl⟩

/-- A name that no record has is not found. -/
theorem findEntry_eq_none (h : DirBlock m addr ino rs) {name : Str} (hn : NulFree name)
    (hne : ∀ r ∈ dirRecords ino h.ino_lt false rs, r.name ≠ name) :
    findEntry m name walkFuel addr = none := by
  obtain ⟨fresh, -, hchain, hend⟩ := h.chain
  refine findEntry_none hchain hend hn (fun r hr => ?_) (h.length_lt_walkFuel fresh)
  obtain ⟨q, hq, hname⟩ := exists_of_mem hr
  rw [← hname]
  exact hne q hq

/-- The first record of a name is found where it lies; here one behind the dots. -/
theorem findEntry_eq_some (h : DirBlock m addr ino (rs ++ r :: ts))
    (hne : ∀ q ∈ dirRecords ino h.ino_lt false rs, q.name ≠ r.name) :
    findEntry m r.name walkFuel addr = some (addr + (20 + dirFormat.span rs)) ∧
      dirFormat.Stored m (addr + (20 + dirFormat.span rs)) r := by
  obtain ⟨fresh, hfresh, hchain, -⟩ := h.chain
  have hff : fresh = false := by
    cases fresh with
    | false => rfl
    | true => exact absurd (hfresh rfl) (by simp)
  subst hff
  have hcut : dirRecords ino h.ino_lt false (rs ++ r :: ts) =
      dirRecords ino h.ino_lt false rs ++ r :: ts := rfl
  have hlen := h.length_lt_walkFuel false
  rw [hcut] at hchain hlen
  rw [← span_dirRecords h.ino_lt]
  exact ⟨findEntry_some hchain r.name_nul hne rfl (by simp at hlen; omega), hchain.stored⟩

/-- The last record, before and after it is shrunk, and that `create_file` finds it. -/
theorem last (h : DirBlock m addr ino rs) :
    ∃ ts last last', dirFormat.Chain m addr (ts ++ [last]) ∧
      dirRecords ino h.ino_lt false rs = ts ++ [last'] ∧ last'.name = last.name ∧
      last'.inode = last.inode ∧ last'.Exact ∧
      20 + dirFormat.span rs = dirFormat.span ts + last'.size ∧
      (lastEntry m (addr + blockSize) blockSize addr none).2 = some (addr + dirFormat.span ts) := by
  obtain ⟨fresh, hfresh, hchain, hend⟩ := h.chain
  have hcount := dirFormat.length_le_span rs
  have hfits := h.fits
  have hspan := span_dirRecords h.ino_lt rs
  have hblock := h.span_lt hfresh
  obtain ⟨ts, last, last', hcut, hcut', hname, hinode, hexact⟩ : ∃ ts last last',
      dirRecords ino h.ino_lt fresh rs = ts ++ [last] ∧
        dirRecords ino h.ino_lt false rs = ts ++ [last'] ∧
        last'.name = last.name ∧ last'.inode = last.inode ∧ last'.Exact := by
    rcases List.eq_nil_or_concat rs with rfl | ⟨us, r, hus⟩
    · exact ⟨[selfDot ino h.ino_lt], dotdot fresh, dotdot false, rfl, rfl, rfl, rfl, by
        unfold DirRecord.Exact; decide⟩
    · have hff : fresh = false := by
        cases fresh with
        | false => rfl
        | true => exact absurd (hfresh rfl) (by simp [hus])
      subst hff hus
      exact ⟨dirRecords ino h.ino_lt false us, r, r, by simp [dirRecords], by simp [dirRecords],
        rfl, rfl, h.exact r (by simp)⟩
  have hlen : ts.length ≤ rs.length + 1 := by
    have := congrArg List.length hcut
    simp only [dirRecords, List.length_cons, List.length_append, List.length_nil] at this
    omega
  rw [hcut', RecordFormat.span_append, RecordFormat.span_cons, RecordFormat.span_nil, dirFormat_len,
    Nat.add_zero] at hspan
  rw [hcut] at hchain hend hblock
  refine ⟨ts, last, last', hchain, hcut', hname, hinode, hexact, hspan.symm, ?_⟩
  exact lastEntry_chain hchain hend (by omega) (by rw [blockSize]; omega)

/-- **`create_file` appends an entry** to a directory and changes no other block. -/
theorem create (h : DirBlock m addr ino rs) (hbig : addr + blockSize < 2 ^ 64) {name : Str}
    {inode : Nat} (hn : NulFree name) (hl : name.length ≤ 245) (hi : inode < 2 ^ 32)
    (hroom : 20 + dirFormat.span rs + recSize name.length ≤ 4088) :
    ∃ prev, (lastEntry m (addr + blockSize) blockSize addr none).2 = some prev ∧
      ∀ m', m' = writeEntry (shrinkEntry m prev (addr + blockSize))
        (prev + minRecLen (nameLen m prev)) inode name →
      DirBlock m' addr ino (rs ++ [entryRecord name inode hn hl hi]) ∧
        ∀ x, x < addr ∨ addr + blockSize ≤ x → m' x = m x := by
  obtain ⟨ts, last, last', hchain, hcut, hname, hinode, hexact, hspan, hlast⟩ := h.last
  refine ⟨_, hlast, ?_⟩
  intro m' hm'
  obtain ⟨hchain', hend', hout⟩ := chain_append_entry hchain hname hinode hexact hn hl hi
    (by rw [blockSize]; omega) hbig rfl hm'
  have hrecords : dirRecords ino h.ino_lt false (rs ++ [entryRecord name inode hn hl hi]) =
      ts ++ [last', entryRecord name inode hn hl hi] := by
    have := congrArg (· ++ [entryRecord name inode hn hl hi]) hcut
    simpa [dirRecords] using this
  have hsize : (entryRecord name inode hn hl hi).size = recSize name.length := rfl
  refine ⟨⟨h.ino_lt, ⟨false, by simp, by rw [hrecords]; exact hchain', ?_⟩, fun r hr => ?_, ?_⟩,
    hout⟩
  · rw [hrecords, RecordFormat.span_append, RecordFormat.span_cons, RecordFormat.span_cons,
      RecordFormat.span_nil, dirFormat_len, dirFormat_len, hsize, Nat.add_zero, ← Nat.add_assoc,
      ← Nat.add_assoc]
    exact hend'
  · rcases List.mem_append.1 hr with hr | hr
    · exact h.exact r hr
    · rw [List.mem_singleton] at hr
      subst hr
      exact ⟨hl, rfl⟩
  · rw [RecordFormat.span_append, RecordFormat.span_cons, RecordFormat.span_nil, dirFormat_len,
      hsize]
    omega

/-- A record of length 0, which `create_file` writes for a name of 246 to 249 bytes, ends
the chain where it ended before. -/
theorem create_hidden (m' : ByteMem) (h : DirBlock m addr ino rs)
    (hbig : addr + blockSize < 2 ^ 64) {prev : Nat}
    (hprev : (lastEntry m (addr + blockSize) blockSize addr none).2 = some prev)
    (hm' : ∀ x < prev + minRecLen (nameLen m prev),
      m' x = shrinkEntry m prev (addr + blockSize) x)
    (hzero : recLen m' (prev + minRecLen (nameLen m prev)) = 0) : DirBlock m' addr ino rs := by
  obtain ⟨ts, last, last', hchain, hcut, hname, hinode, hexact, hspan, hlast⟩ := h.last
  have hfits := h.fits
  rw [hlast, Option.some.injEq] at hprev
  have hmin : minRecLen (nameLen m prev) = last'.size := by
    rw [← hprev, (chain_append.1 hchain).2.1.2.1, ← hname, minRecLen_eq hexact.1, hexact.2]
  rw [hmin] at hm' hzero
  obtain ⟨-, hchain', -⟩ :=
    chain_shrink m' hchain hname hinode hexact (by rw [blockSize]; omega) hbig
    hprev.symm hm'
  refine ⟨h.ino_lt, ⟨false, by simp, by rw [hcut]; exact hchain', ?_⟩, h.exact, h.fits⟩
  rw [span_dirRecords, hspan, ← Nat.add_assoc, hprev]
  exact hzero

end DirBlock

/-! ## The invariant of the root block -/

/-- **The invariant of the root block**: `rs` are its entries. -/
structure RootDir (m : ByteMem) (rs : List DirRecord) : Prop where
  /-- Records and terminator; `".."` is long only in a directory without entries. -/
  chain : ∃ fresh, (fresh = true → rs = []) ∧ dirFormat.Chain m rootAddr (rootRecords fresh rs) ∧
    recLen m (rootAddr + dirFormat.span (rootRecords fresh rs)) = 0
  /-- Entries are as long as their names need. -/
  exact : ∀ r ∈ rs, r.Exact
  /-- The terminator lies inside the block. -/
  fits : 20 + dirFormat.span rs ≤ 4088

namespace RootDir

variable {m m' : ByteMem} {rs ts : List DirRecord} {r : DirRecord}

/-- The root block is the directory block of inode 1. -/
theorem block (h : RootDir m rs) : DirBlock m rootAddr 1 rs :=
  ⟨by decide, h.chain, h.exact, h.fits⟩

theorem of_block (h : DirBlock m rootAddr 1 rs) : RootDir m rs := ⟨h.chain, h.exact, h.fits⟩

/-- The invariant is about the bytes of the root block only. -/
theorem frame (h : RootDir m rs) (hm : ∀ x, rootAddr ≤ x → x < rootAddr + blockSize → m' x = m x) :
    RootDir m' rs := of_block (h.block.frame hm)

/-- The listing of the root block. -/
theorem readEntries_eq (h : RootDir m rs) (c : Nat) :
    readEntries m c rootAddr = ((dot :: dotdot false :: rs).map DirRecord.toDirent).take c :=
  h.block.readEntries_eq c

/-- A name that no entry has is not found. -/
theorem findEntry_eq_none (h : RootDir m rs) {name : Str} (hn : NulFree name)
    (hdots : name ≠ dot.name ∧ name ≠ (dotdot false).name) (hne : ∀ r ∈ rs, r.name ≠ name) :
    findEntry m name walkFuel rootAddr = none :=
  h.block.findEntry_eq_none hn
    (List.forall_mem_cons.2 ⟨Ne.symm hdots.1, List.forall_mem_cons.2 ⟨Ne.symm hdots.2, hne⟩⟩)

/-- The first entry of a name is found where it lies. -/
theorem findEntry_eq_some (h : RootDir m (rs ++ r :: ts))
    (hdots : r.name ≠ dot.name ∧ r.name ≠ (dotdot false).name) (hne : ∀ q ∈ rs, q.name ≠ r.name) :
    findEntry m r.name walkFuel rootAddr = some (rootAddr + (20 + dirFormat.span rs)) ∧
      dirFormat.Stored m (rootAddr + (20 + dirFormat.span rs)) r :=
  h.block.findEntry_eq_some
    (List.forall_mem_cons.2 ⟨Ne.symm hdots.1, List.forall_mem_cons.2 ⟨Ne.symm hdots.2, hne⟩⟩)

/-- **`create_file` appends an entry** to the root directory and changes no other
block. -/
theorem create (h : RootDir m rs) {name : Str} {inode : Nat} (hn : NulFree name)
    (hl : name.length ≤ 245) (hi : inode < 2 ^ 32)
    (hroom : 20 + dirFormat.span rs + recSize name.length ≤ 4088) :
    ∃ prev, (lastEntry m (rootAddr + blockSize) blockSize rootAddr none).2 = some prev ∧
      ∀ m', m' = writeEntry (shrinkEntry m prev (rootAddr + blockSize))
        (prev + minRecLen (nameLen m prev)) inode name →
      RootDir m' (rs ++ [entryRecord name inode hn hl hi]) ∧
        ∀ x, x < rootAddr ∨ rootAddr + blockSize ≤ x → m' x = m x := by
  obtain ⟨prev, hprev, hspec⟩ :=
    h.block.create (by rw [blockSize, rootAddr_eq]; omega) hn hl hi hroom
  refine ⟨prev, hprev, ?_⟩
  intro m' hm'
  obtain ⟨hdir, hout⟩ := hspec m' hm'
  exact ⟨of_block hdir, hout⟩

/-- **`abyssfs_unlink` takes an entry out** of the root directory and changes no
other block. -/
theorem remove (h : RootDir m (rs ++ r :: ts)) {dir : Nat}
    (hdir : dir = rootAddr + (20 + dirFormat.span rs)) :
    RootDir (removeEntry m rootAddr dir) (rs ++ ts) ∧
      ∀ x, x < rootAddr ∨ rootAddr + blockSize ≤ x → removeEntry m rootAddr dir x = m x := by
  obtain ⟨fresh, hfresh, hchain, hend⟩ := h.chain
  have hff : fresh = false := by
    cases fresh with
    | false => rfl
    | true => exact absurd (hfresh rfl) (by simp)
  subst hff
  have hfits := h.fits
  have hcut : rootRecords false (rs ++ r :: ts) = rootRecords false rs ++ r :: ts := rfl
  have hspan := span_rootRecords (rs ++ r :: ts)
  have hdir' : dir = rootAddr + dirFormat.span (rootRecords false rs) := by
    rw [hdir, span_rootRecords]
  rw [hcut] at hchain hend hspan
  obtain ⟨hchain', hend', hout⟩ :=
    removeEntry_spec hchain hend (by rw [hspan, blockSize]; omega) hdir'
  rw [RecordFormat.span_append, RecordFormat.span_cons] at hfits
  refine ⟨⟨⟨false, by simp, hchain', hend'⟩, fun q hq => h.exact q ?_, ?_⟩, hout⟩
  · rcases List.mem_append.1 hq with hq | hq
    · exact List.mem_append_left _ hq
    · exact List.mem_append_right _ (List.mem_cons_of_mem _ hq)
  · rw [RecordFormat.span_append]
    omega

end RootDir

/-! ## The other places `abyssfs.c` writes to -/

theorem putDots_outside {m : ByteMem} {dir self x : Nat} (h : x < dir ∨ dir + 20 ≤ x) :
    putDots m dir self x = m x := by
  have hmin : minRecLen 1 = 8 := by decide +kernel
  simp only [putDots, hmin]
  have h1 : (str ['.']).length = 1 := rfl
  have h2 : (str ['.', '.']).length = 2 := rfl
  rw [putEntry_outside (by omega), putEntry_outside (by omega)]

/-- The two records of a new directory; the second is long. -/
theorem putDots_chain {m : ByteMem} {addr ino : Nat} (hino : ino < 2 ^ 32) :
    dirFormat.Chain (putDots m addr ino) addr [selfDot ino hino, dotdot true] := by
  have hmin : minRecLen 1 = 8 := by decide +kernel
  have hblocks : putDots m addr ino = putEntry (putEntry m addr (selfDot ino hino).inode
      (selfDot ino hino).name.length (selfDot ino hino).size (selfDot ino hino).name) (addr + 8)
      (dotdot true).inode (dotdot true).name.length 4088 (dotdot true).name := by
    simp only [putDots, hmin]
    rfl
  have hbyte : UInt8.ofNat 4088 = UInt8.ofNat (dotdot true).size := rfl
  refine ⟨?_, ?_, trivial⟩
  · refine dirFormat.stored_move (a := addr) (putEntry_stored (m := m)) ?_
    intro i hi
    have hi' : i < 8 := hi
    rw [hblocks, putEntry_outside (by omega)]
  · rw [hblocks, putEntry, hbyte]
    exact putEntry_stored

/-- **A new directory** has no entries, if the byte behind its long `".."` that is read as a
length is 0. -/
theorem dirBlock_putDots {m : ByteMem} {addr ino : Nat} (hino : ino < 2 ^ 32)
    (hclean : recLen m (addr + 256) = 0) : DirBlock (putDots m addr ino) addr ino [] := by
  have hspan : dirFormat.span (dirRecords ino hino true []) = 256 := rfl
  refine ⟨hino, ⟨true, fun _ => rfl, putDots_chain hino, ?_⟩, by simp, by simp⟩
  rw [hspan, recLen, putDots_outside (Or.inr (by omega))]
  exact hclean

/-- The root block `abyssfs_init` builds has no entries. -/
theorem rootDir_init (m : ByteMem) : RootDir (abyssfsInit m).blocks [] := by
  refine RootDir.of_block (dirBlock_putDots (m := memset m 0 0 (blockSize * totalBlocks))
    (by decide) ?_)
  rw [recLen, memset_eq, ByteMem.blit_inside (by omega)
    (by rw [blockSize, totalBlocks]; decide)]
  rfl

end OsArm
