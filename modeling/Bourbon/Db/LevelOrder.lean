import Bourbon.Lib.SortedIterator
import Bourbon.Db.DbImpl

/-!
# The order of entries over memtables and levels

A lookup searches the active memtable, the immutable memtable, the files of level 0 from the newest
to the oldest, and then level after level.  It stops at the first entry of its user key, so for each
user key newer entries have to come first.

* `NewerFirst` : newer entries come first;
* `Arranged` : the invariant of memtables, levels and table files;
* `Arranged.write`, `Arranged.switchMemTable`, `Arranged.flush`, `Arranged.install` : the steps
  keep it;
* `Arranged.behind` : files that stay behind a compaction hold the newer entries.
-/

namespace Bourbon

open List Function

variable {K V : Type*} [LinearOrder K]

/-! ### Tables -/

/-- The table file holds sorted entries from its smallest to its largest key. -/
structure IsTableOf (f : FileMetaData K) (entries : List (Entry K V)) : Prop where
  sorted : entries.Pairwise fun a b => a.1 < b.1
  smallest_mem : ∃ e ∈ entries, e.1 = f.smallest
  largest_mem : ∃ e ∈ entries, e.1 = f.largest
  range : ∀ e ∈ entries, f.smallest ≤ e.1 ∧ e.1 ≤ f.largest

instance (f : FileMetaData K) (entries : List (Entry K V)) : Decidable (IsTableOf f entries) :=
  decidable_of_iff ((entries.Pairwise fun a b => a.1 < b.1) ∧ (∃ e ∈ entries, e.1 = f.smallest) ∧
      (∃ e ∈ entries, e.1 = f.largest) ∧ ∀ e ∈ entries, f.smallest ≤ e.1 ∧ e.1 ≤ f.largest)
    ⟨fun ⟨h1, h2, h3, h4⟩ => ⟨h1, h2, h3, h4⟩, fun ⟨h1, h2, h3, h4⟩ => ⟨h1, h2, h3, h4⟩⟩

theorem IsTableOf.nonempty {f : FileMetaData K} {entries : List (Entry K V)}
    (h : IsTableOf f entries) : f.smallest ≤ f.largest := by
  obtain ⟨e, he, -⟩ := h.smallest_mem
  exact (h.range e he).1.trans (h.range e he).2

theorem eq_of_sorted {entries : List (Entry K V)} (h : entries.Pairwise fun a b => a.1 < b.1)
    {e e' : Entry K V} (he : e ∈ entries) (he' : e' ∈ entries) (heq : e.1 = e'.1) : e = e' :=
  SortedIterator.injOn_of_sorted h he he' heq

theorem fileMetaData_spec {o : DBOptions K V} {number : ℕ} {entries : List (Entry K V)}
    {f : FileMetaData K} (h : o.fileMetaData number entries = some f)
    (hs : entries.Pairwise fun a b => a.1 < b.1) : f.number = number ∧ IsTableOf f entries := by
  cases entries with
  | nil => cases h
  | cons e rest =>
    obtain rfl := Option.some.inj h
    obtain ⟨hfirst, hrest⟩ := pairwise_cons.1 hs
    -- the last entry
    have hlast : rest.getLastD e ∈ e :: rest ∧ ∀ x ∈ e :: rest, x.1 ≤ (rest.getLastD e).1 := by
      rcases eq_nil_or_concat' rest with rfl | ⟨init, last, rfl⟩
      · exact ⟨mem_cons_self, fun x hx => by rw [mem_singleton.1 hx]; exact le_rfl⟩
      · rw [getLastD_concat]
        refine ⟨by simp, fun x hx => ?_⟩
        rcases mem_cons.1 hx with rfl | hx
        · exact (hfirst last (by simp)).le
        · rcases mem_append.1 hx with hx | hx
          · exact ((pairwise_append.1 hrest).2.2 x hx last (by simp)).le
          · rw [mem_singleton.1 hx]
    refine ⟨rfl, hs, ⟨e, mem_cons_self, rfl⟩, ⟨_, hlast.1, rfl⟩, fun x hx => ⟨?_, hlast.2 x hx⟩⟩
    rcases mem_cons.1 hx with rfl | hx
    · exact le_rfl
    · exact (hfirst x hx).le

omit [LinearOrder K] in
theorem fileMetaData_number {o : DBOptions K V} {number : ℕ} {entries : List (Entry K V)}
    {f : FileMetaData K} (h : o.fileMetaData number entries = some f) : f.number = number := by
  cases entries with
  | nil => cases h
  | cons e rest =>
    obtain rfl := Option.some.inj h
    rfl

omit [LinearOrder K] in
theorem fileMetaData_isSome (o : DBOptions K V) (number : ℕ) {entries : List (Entry K V)}
    (h : entries ≠ []) : ∃ f, o.fileMetaData number entries = some f := by
  obtain ⟨e, rest, rfl⟩ := exists_cons_of_ne_nil h
  exact ⟨_, rfl⟩

/-- Files that are ordered one by one hold a sorted sequence of entries, and conversely. -/
theorem ordered_iff_pairwise {tables : ℕ → List (Entry K V)} {files : List (FileMetaData K)}
    (h : ∀ f ∈ files, IsTableOf f (tables f.number)) :
    Ordered files ↔ (files.flatMap fun f => tables f.number).Pairwise fun a b => a.1 < b.1 := by
  rw [pairwise_flatMap]
  constructor
  · intro hord
    refine ⟨fun f hf => (h f hf).sorted, hord.imp_of_mem fun {f g} hf hg hfg a ha b hb => ?_⟩
    exact ((h f hf).range a ha).2.trans_lt (hfg.trans_le ((h g hg).range b hb).1)
  · rintro ⟨-, hcross⟩
    refine hcross.imp_of_mem fun {f g} hf hg hfg => ?_
    obtain ⟨a, ha, hlast⟩ := (h f hf).largest_mem
    obtain ⟨b, hb, hfirst⟩ := (h g hg).smallest_mem
    rw [← hlast, ← hfirst]
    exact hfg a ha b hb

/-! ### Memtables -/

theorem memTableAdd_sorted {mem : List (Entry K V)} {e : Entry K V}
    (h : mem.Pairwise fun a b => a.1 < b.1) (hne : ∀ a ∈ mem, a.1 ≠ e.1) :
    (memTableAdd mem e).Pairwise fun a b => a.1 < b.1 := by
  induction mem with
  | nil => exact pairwise_singleton _ _
  | cons b mem ih =>
    obtain ⟨hb, hrest⟩ := pairwise_cons.1 h
    rw [memTableAdd, orderedInsert_cons]
    split_ifs with hle
    · have hlt : e.1 < b.1 := lt_of_le_of_ne hle (hne b mem_cons_self).symm
      refine pairwise_cons.2 ⟨fun a ha => ?_, h⟩
      rcases mem_cons.1 ha with rfl | ha
      · exact hlt
      · exact hlt.trans (hb a ha)
    · refine pairwise_cons.2 ⟨fun a ha => ?_,
        ih hrest fun a ha => hne a (mem_cons_of_mem b ha)⟩
      rcases (mem_orderedInsert _).1 ha with rfl | ha
      · exact not_le.1 hle
      · exact hb a ha

theorem mem_memTableAdd {mem : List (Entry K V)} {e a : Entry K V} :
    a ∈ memTableAdd mem e ↔ a = e ∨ a ∈ mem := mem_orderedInsert _

omit [LinearOrder K] in
theorem batchEntries_cons [Inhabited V] (sequence : ℕ) (op : BatchOp K V)
    (batch : List (BatchOp K V)) : ∃ e : Entry K V, e.1.sequence = sequence ∧
      batchEntries sequence (op :: batch) = e :: batchEntries (sequence + 1) batch := by
  cases op with
  | put key value => exact ⟨_, rfl, rfl⟩
  | delete key => exact ⟨_, rfl, rfl⟩

omit [LinearOrder K] in
theorem length_batchEntries [Inhabited V] (sequence : ℕ) (ops : List (BatchOp K V)) :
    (batchEntries sequence ops).length = ops.length := by
  induction ops generalizing sequence with
  | nil => rfl
  | cons op ops ih =>
    cases op <;> simp [batchEntries, ih]

omit [LinearOrder K] in
theorem batchEntries_append [Inhabited V] (sequence : ℕ) (ops ops' : List (BatchOp K V)) :
    batchEntries sequence (ops ++ ops') = batchEntries sequence ops ++
      batchEntries (sequence + ops.length) ops' := by
  induction ops generalizing sequence with
  | nil => rfl
  | cons op ops ih =>
    have hnext : sequence + (op :: ops).length = sequence + 1 + ops.length := by
      rw [length_cons]
      omega
    cases op with
    | put key value =>
      rw [cons_append, batchEntries, batchEntries, ih, hnext, cons_append]
    | delete key =>
      rw [cons_append, batchEntries, batchEntries, ih, hnext, cons_append]

theorem foldl_memTableAdd_perm (added mem : List (Entry K V)) :
    (added.foldl memTableAdd mem).Perm (mem ++ added) := by
  induction added generalizing mem with
  | nil => rw [append_nil]; exact Perm.refl mem
  | cons a added ih =>
    refine (ih (memTableAdd mem a)).trans ?_
    exact ((perm_orderedInsert _ a mem).append_right added).trans perm_middle.symm

theorem mem_foldl_memTableAdd {added mem : List (Entry K V)} {e : Entry K V} :
    e ∈ added.foldl memTableAdd mem ↔ e ∈ added ∨ e ∈ mem := by
  rw [(foldl_memTableAdd_perm added mem).mem_iff, mem_append, or_comm]

/-! ### The invariant -/

/-- The first entry is newer than the second, if both are entries of one user key. -/
def Newer (e e' : Entry K V) : Prop :=
  e.1.user_key = e'.1.user_key → e'.1.sequence < e.1.sequence

instance (e e' : Entry K V) : Decidable (Newer e e') := inferInstanceAs (Decidable (_ → _))

theorem Newer.le {e e' : Entry K V} (h : Newer e e') (huser : e.1.user_key = e'.1.user_key) :
    e.1 ≤ e'.1 := by
  by_contra hlt
  exact absurd (h huser) (not_lt.2 (InternalKey.sequence_le_of_le (not_le.1 hlt).le huser.symm))

namespace DBState

/-- The entries in the files of a level. -/
def levelEntries (s : DBState K V) (level : ℕ) : Set (Entry K V) :=
  {e | ∃ f ∈ s.current level, e ∈ s.tables f.number}

/-- The entries of the immutable memtable. -/
def immEntries (s : DBState K V) : Set (Entry K V) := {e | ∃ imm, s.imm = some imm ∧ e ∈ imm}

/-- All entries. -/
def entries (s : DBState K V) : Set (Entry K V) :=
  {e | e ∈ s.mem ∨ e ∈ s.immEntries ∨ ∃ level, e ∈ s.levelEntries level}

end DBState

/-- For every user key, newer entries are found first. -/
structure NewerFirst (s : DBState K V) : Prop where
  mem : ∀ e ∈ s.mem, ∀ e' ∈ s.immEntries, Newer e e'
  imm : ∀ e ∈ s.immEntries, ∀ e' ∈ s.levelEntries 0, Newer e e'
  mem_zero : ∀ e ∈ s.mem, ∀ e' ∈ s.levelEntries 0, Newer e e'
  /-- In level 0, the file with the larger number is the newer one. -/
  zero : ∀ f ∈ s.current 0, ∀ g ∈ s.current 0, g.number < f.number →
    ∀ e ∈ s.tables f.number, ∀ e' ∈ s.tables g.number, Newer e e'
  levels : ∀ a b, a < b → ∀ e ∈ s.levelEntries a, ∀ e' ∈ s.levelEntries b, Newer e e'

/-- The invariant of memtables, levels and table files. -/
structure Arranged (s : DBState K V) : Prop where
  mem_sorted : s.mem.Pairwise fun a b => a.1 < b.1
  imm_sorted : ∀ imm, s.imm = some imm → imm.Pairwise fun a b => a.1 < b.1
  table : ∀ level, ∀ f ∈ s.current level, IsTableOf f (s.tables f.number)
  ordered : ∀ level, level ≠ 0 → Ordered (s.current level)
  number : ∀ level, ∀ f ∈ s.current level, f.number < s.next_file_number
  distinct : (s.current 0).Pairwise fun f g => f.number ≠ g.number
  limit : s.last_sequence ≤ kMaxSequenceNumber
  bounded : ∀ e ∈ s.entries, e.1.sequence ≤ s.last_sequence
  unique : ∀ e ∈ s.entries, ∀ e' ∈ s.entries, e.1.sequence = e'.1.sequence → e.1 = e'.1
  mem_imm : ∀ e ∈ s.mem, ∀ e' ∈ s.immEntries, e'.1.sequence < e.1.sequence
  mem_level : ∀ e ∈ s.mem, ∀ level, ∀ e' ∈ s.levelEntries level, e'.1.sequence < e.1.sequence
  imm_level : ∀ e ∈ s.immEntries, ∀ level, ∀ e' ∈ s.levelEntries level,
    e'.1.sequence < e.1.sequence
  zero : ∀ f ∈ s.current 0, ∀ g ∈ s.current 0, g.number < f.number →
    ∀ e ∈ s.tables f.number, ∀ e' ∈ s.tables g.number, Newer e e'
  levels : ∀ a b, a < b → ∀ e ∈ s.levelEntries a, ∀ e' ∈ s.levelEntries b, Newer e e'

/-- Down to a level that is not 0, the files of a version are beside a new file. -/
def Version.Clear (v : Version K) (level : ℕ) (file : FileMetaData K) : Prop :=
  level ≠ 0 → ∀ i ≤ level, ∀ g ∈ v i,
    g.largest.user_key < file.smallest.user_key ∨ file.largest.user_key < g.smallest.user_key

/-- The immutable memtable can become a table file of a level. -/
structure FlushesTo (s : DBState K V) (level : ℕ) (file : FileMetaData K)
    (entries : List (Entry K V)) : Prop where
  imm : s.imm = some entries
  table : IsTableOf file entries
  number : file.number = s.next_file_number
  clear : Version.Clear s.current level file

namespace Arranged

variable {s : DBState K V}

theorem newerFirst (h : Arranged s) : NewerFirst s :=
  ⟨fun e he e' he' _ => h.mem_imm e he e' he', fun e he e' he' _ => h.imm_level e he 0 e' he',
    fun e he e' he' _ => h.mem_level e he 0 e' he', h.zero, h.levels⟩

theorem wellFormed (h : Arranged s) : WellFormed s.current :=
  ⟨fun level f hf => (h.table level f hf).nonempty, h.ordered⟩

theorem congr {s' : DBState K V} (h : Arranged s) (hmem : s'.mem = s.mem) (himm : s'.imm = s.imm)
    (hlast : s'.last_sequence = s.last_sequence) (hcurrent : s'.current = s.current)
    (htables : ∀ level, ∀ f ∈ s.current level, s'.tables f.number = s.tables f.number)
    (hnext : s.next_file_number ≤ s'.next_file_number) : Arranged s' := by
  have hlevel : s'.levelEntries = s.levelEntries := by
    funext level
    refine Set.ext fun e => exists_congr fun f => ?_
    rw [hcurrent]
    exact and_congr_right fun hf => by rw [htables level f hf]
  have himmE : s'.immEntries = s.immEntries := by
    rw [DBState.immEntries, himm]
    rfl
  have hentries : s'.entries = s.entries := by
    rw [DBState.entries, hmem, himmE, hlevel]
    rfl
  refine ⟨hmem ▸ h.mem_sorted, himm ▸ h.imm_sorted, fun level f hf => ?_, hcurrent ▸ h.ordered,
    fun level f hf => ?_, hcurrent ▸ h.distinct, hlast ▸ h.limit, ?_,
    hentries ▸ h.unique, ?_, ?_, ?_,
    fun f hf g hg => ?_, hlevel ▸ h.levels⟩
  · rw [hcurrent] at hf
    rw [htables level f hf]
    exact h.table level f hf
  · rw [hcurrent] at hf
    exact (h.number level f hf).trans_le hnext
  · rw [hentries, hlast]
    exact h.bounded
  · rw [hmem, himmE]
    exact h.mem_imm
  · rw [hmem, hlevel]
    exact h.mem_level
  · rw [himmE, hlevel]
    exact h.imm_level
  · rw [hcurrent] at hf hg
    rw [htables 0 f hf, htables 0 g hg]
    exact h.zero f hf g hg

/-! ### Writes -/

theorem add (h : Arranged s) {e : Entry K V} (he : e.1.sequence = s.last_sequence + 1)
    (hlimit : s.last_sequence + 1 ≤ kMaxSequenceNumber) :
    Arranged { s with mem := memTableAdd s.mem e, last_sequence := s.last_sequence + 1 } := by
  -- every other entry is older
  have hold : ∀ a ∈ s.entries, a.1.sequence < e.1.sequence := fun a ha => by
    have := h.bounded a ha
    omega
  have hentries : ∀ a, a ∈ DBState.entries { s with
      mem := memTableAdd s.mem e, last_sequence := s.last_sequence + 1 } →
        a = e ∨ a ∈ s.entries := by
    rintro a (ha | ha)
    · exact (mem_memTableAdd.1 ha).imp_right Or.inl
    · exact Or.inr (Or.inr ha)
  refine ⟨memTableAdd_sorted h.mem_sorted fun a ha heq => ?_, h.imm_sorted, h.table, h.ordered,
    h.number, h.distinct, hlimit, fun a ha => ?_, fun a ha b hb hab => ?_, fun a ha b hb => ?_,
    fun a ha level b hb => ?_, h.imm_level, h.zero, h.levels⟩
  · exact absurd (congrArg InternalKey.sequence heq) (hold a (Or.inl ha)).ne
  · rcases hentries a ha with rfl | ha
    · exact he.le
    · exact Nat.le_succ_of_le (h.bounded a ha)
  · rcases hentries a ha with rfl | ha'
    · rcases hentries b hb with rfl | hb'
      · rfl
      · exact absurd hab (hold b hb').ne'
    · rcases hentries b hb with rfl | hb'
      · exact absurd hab (hold a ha').ne
      · exact h.unique a ha' b hb' hab
  · rcases mem_memTableAdd.1 ha with rfl | ha
    · exact hold b (Or.inr (Or.inl hb))
    · exact h.mem_imm a ha b hb
  · rcases mem_memTableAdd.1 ha with rfl | ha
    · exact hold b (Or.inr (Or.inr ⟨level, hb⟩))
    · exact h.mem_level a ha level b hb

theorem write [Inhabited V] (h : Arranged s) {batch : List (BatchOp K V)} {s' : DBState K V}
    (hs : s.write batch = some s') : Arranged s' := by
  obtain ⟨hlimit, rfl⟩ := DBState.write_some hs
  clear hs
  induction batch generalizing s with
  | nil => exact h
  | cons op batch ih =>
    obtain ⟨e, he, hcons⟩ := batchEntries_cons (s.last_sequence + 1) op batch
    rw [length_cons] at hlimit ⊢
    have := ih (h.add he (by omega)) (by simp only; omega)
    rw [hcons, foldl_cons]
    convert this using 2
    simp only
    omega

theorem switchMemTable (h : Arranged s) {s' : DBState K V} (hs : s.switchMemTable = some s') :
    Arranged s' := by
  obtain ⟨-, rfl⟩ := DBState.switchMemTable_some hs
  have himm : ∀ e, e ∈ DBState.immEntries { s with
      mem := [], imm := some s.mem, next_file_number := s.next_file_number + 1 } →
      e ∈ s.mem := by
    rintro e ⟨imm, himm, he⟩
    obtain rfl := Option.some.inj himm
    exact he
  have hentries : ∀ e, e ∈ DBState.entries { s with
      mem := [], imm := some s.mem, next_file_number := s.next_file_number + 1 } →
      e ∈ s.entries := by
    rintro e (he | he | he)
    · exact absurd he not_mem_nil
    · exact Or.inl (himm e he)
    · exact Or.inr (Or.inr he)
  refine ⟨List.Pairwise.nil, fun imm himm => ?_, h.table, h.ordered,
    fun level f hf => Nat.lt_succ_of_lt (h.number level f hf), h.distinct, h.limit,
    fun e he => h.bounded e (hentries e he),
    fun e he e' he' => h.unique e (hentries e he) e' (hentries e' he'),
    fun e he => absurd he not_mem_nil, fun e he => absurd he not_mem_nil,
    fun e he => h.mem_level e (himm e he), h.zero, h.levels⟩
  obtain rfl := Option.some.inj himm
  exact h.mem_sorted

/-! ### Flushes -/

/-- A level without overlap: every file is on one side of the range. -/
theorem side_of_not_overlapInLevel (h : Arranged s) {level : ℕ} {p q : K}
    (hno : overlapInLevel s.current level (some p) (some q) = false) {g : FileMetaData K}
    (hg : g ∈ s.current level) : g.largest.user_key < p ∨ q < g.smallest.user_key := by
  have hseq : ∀ f ∈ s.current level, f.largest.sequence ≤ kMaxSequenceNumber := by
    intro f hf
    obtain ⟨e, he, hlast⟩ := (h.table level f hf).largest_mem
    rw [← hlast]
    exact (h.bounded e (Or.inr (Or.inr ⟨level, f, hf, he⟩))).trans h.limit
  have hiff := someFileOverlapsRange_iff (b := some p) (e := some q)
    (h.wellFormed.nonempty level) hseq
    fun hd : decide (0 < level) = true =>
      h.ordered level (Nat.pos_iff_ne_zero.1 (of_decide_eq_true hd))
  by_contra hside
  rw [not_or, not_lt, not_lt] at hside
  have := hiff.2 ⟨g, hg, overlaps_some.2 hside⟩
  rw [← overlapInLevel, hno] at this
  exact Bool.false_ne_true this

/-- The level of a flush is clear for the new file. -/
theorem pickLevel (h : Arranged s) (max_file_size : ℕ) (file : FileMetaData K) :
    let level := pickLevelForMemTableOutput max_file_size s.current file.smallest.user_key
      file.largest.user_key
    level ≤ kMaxMemCompactLevel ∧ Version.Clear s.current level file := by
  obtain ⟨hle, hno⟩ := pickLevelForMemTableOutput_spec max_file_size s.current
    file.smallest.user_key file.largest.user_key
  exact ⟨hle, fun hne i hi g hg => h.side_of_not_overlapInLevel (hno hne i hi) hg⟩

theorem mem_flush {v : Version K} {level i : ℕ} {file f : FileMetaData K} :
    f ∈ applyEdit v ⟨[], [(level, file)]⟩ i ↔ f ∈ v i ∨ i = level ∧ f = file := by
  have hdel : ∀ n, VersionEdit.isDeleted (⟨[], [(level, file)]⟩ : VersionEdit K) i n = false :=
    fun n => rfl
  rw [mem_applyEdit, hdel, and_iff_left rfl]
  refine or_congr_right ⟨fun hf => ?_, ?_⟩
  · have := mem_singleton.1 (VersionEdit.mem_addedFiles hf)
    exact Prod.mk.inj this
  · rintro ⟨rfl, rfl⟩
    simp [VersionEdit.addedFiles, insertFile]

/-- A flush leaves the tables of the version alone. -/
theorem tables_flushTo (h : Arranged s) {entries : List (Entry K V)} {file : FileMetaData K}
    {level : ℕ} (hf : FlushesTo s level file entries) :
    ∀ i, ∀ g ∈ s.current i, update s.tables file.number entries g.number = s.tables g.number := by
  intro i g hg
  have hlt := h.number i g hg
  have hnumber := hf.number
  exact update_of_ne (by omega) _ _

/-- **A flush keeps the invariant** if down to its level the new file overlaps nothing. -/
theorem flush (h : Arranged s) {entries : List (Entry K V)} {file : FileMetaData K} {level : ℕ}
    (hf : FlushesTo s level file entries) : Arranged (s.flushTo level file entries) := by
  obtain ⟨himm, hfile, hnumber, hside⟩ := hf
  obtain ⟨s', hs'⟩ : ∃ s', s' = s.flushTo level file entries := ⟨_, rfl⟩
  have hcurrent : s'.current = applyEdit s.current ⟨[], [(level, file)]⟩ := by rw [hs']
  have hmem : ∀ i f, f ∈ s'.current i → f ∈ s.current i ∨ i = level ∧ f = file :=
    fun i f hf => mem_flush.1 (hcurrent ▸ hf)
  -- tables with numbers in use stay
  have hold : ∀ i, ∀ f ∈ s.current i, s'.tables f.number = s.tables f.number :=
    hs' ▸ h.tables_flushTo ⟨himm, hfile, hnumber, hside⟩
  have hnew : s'.tables file.number = entries := by
    rw [hs']
    exact update_self _ _ _
  have himmE : ∀ e ∈ entries, e ∈ s.immEntries := fun e he => ⟨entries, himm, he⟩
  have hlevel : ∀ i e, e ∈ s'.levelEntries i → e ∈ s.levelEntries i ∨ i = level ∧ e ∈ entries := by
    rintro i e ⟨f, hf, he⟩
    rcases hmem i f hf with hf | ⟨rfl, rfl⟩
    · rw [hold i f hf] at he
      exact Or.inl ⟨f, hf, he⟩
    · rw [hnew] at he
      exact Or.inr ⟨rfl, he⟩
  have hnone : ∀ e, e ∉ s'.immEntries := by
    rintro e ⟨imm, himm', -⟩
    rw [hs'] at himm'
    cases himm'
  have hmemE : s'.mem = s.mem := by rw [hs']
  have hentries : ∀ e ∈ s'.entries, e ∈ s.entries := by
    rintro e (he | he | ⟨i, he⟩)
    · exact Or.inl (hmemE ▸ he)
    · exact absurd he (hnone e)
    · rcases hlevel i e he with he | ⟨-, he⟩
      · exact Or.inr (Or.inr ⟨i, he⟩)
      · exact Or.inr (Or.inl (himmE e he))
  rw [← hs']
  refine
    { mem_sorted := hmemE ▸ h.mem_sorted
      imm_sorted := fun imm himm' => by rw [hs'] at himm'; cases himm'
      table := fun i f hf => ?_
      ordered := fun i hi => ?_
      number := fun i f hf => ?_
      distinct := ?_
      limit := by rw [hs']; exact h.limit
      bounded := fun e he => by rw [hs']; exact h.bounded e (hentries e he)
      unique := fun e he e' he' => h.unique e (hentries e he) e' (hentries e' he')
      mem_imm := fun _ _ e' he' => absurd he' (hnone e')
      mem_level := fun e he i e' he' => ?_
      imm_level := fun e he => absurd he (hnone e)
      zero := fun f hf g hg hlt e he e' he' => ?_
      levels := fun a b hab e he e' he' => ?_ }
  · rcases hmem i f hf with hf | ⟨rfl, rfl⟩
    · rw [hold i f hf]
      exact h.table i f hf
    · rw [hnew]
      exact hfile
  · -- the new file is apart from the files of its level
    rw [hcurrent]
    refine applyEdit_ordered (h.ordered i hi) ?_ ?_ ?_
    · rintro f (hf | hf)
      · exact h.wellFormed.nonempty i f hf
      · obtain ⟨-, rfl⟩ := Prod.mk.inj (mem_singleton.1 (VersionEdit.mem_addedFiles hf))
        exact hfile.nonempty
    · intro f hf g hg hne
      obtain ⟨-, rfl⟩ := Prod.mk.inj (mem_singleton.1 (VersionEdit.mem_addedFiles hf))
      obtain ⟨-, rfl⟩ := Prod.mk.inj (mem_singleton.1 (VersionEdit.mem_addedFiles hg))
      exact absurd rfl hne
    · intro f hf g hg _
      obtain ⟨rfl, rfl⟩ := Prod.mk.inj (mem_singleton.1 (VersionEdit.mem_addedFiles hf))
      rcases hside hi i le_rfl g hg with hlt | hlt
      · exact Or.inr (InternalKey.lt_of_user_key_lt hlt)
      · exact Or.inl (InternalKey.lt_of_user_key_lt hlt)
  · have hnext : s'.next_file_number = s.next_file_number + 1 := by rw [hs']
    rcases hmem i f hf with hf | ⟨rfl, rfl⟩
    · exact hnext ▸ Nat.lt_succ_of_lt (h.number i f hf)
    · omega
  · -- the new number is larger than all others
    have hperm := saveLevel_perm (VersionEdit.isDeleted (⟨[], [(level, file)]⟩ : VersionEdit K) 0)
      (s.current 0) (VersionEdit.addedFiles ⟨[], [(level, file)]⟩ 0)
    rw [hcurrent]
    refine (hperm.pairwise_iff fun {a b} hab => Ne.symm hab).2 (List.Pairwise.filter _ ?_)
    refine pairwise_append.2 ⟨h.distinct, ?_, fun f hf g hg => ?_⟩
    · by_cases h0 : level = 0
      · simp [VersionEdit.addedFiles, insertFile, h0]
      · simp [VersionEdit.addedFiles, h0]
    · obtain ⟨-, rfl⟩ := Prod.mk.inj (mem_singleton.1 (VersionEdit.mem_addedFiles hg))
      have := h.number 0 f hf
      omega
  · rw [hmemE] at he
    rcases hlevel i e' he' with he' | ⟨-, he'⟩
    · exact h.mem_level e he i e' he'
    · exact h.mem_imm e he e' (himmE e' he')
  · rcases hmem 0 f hf with hf | ⟨rfl, rfl⟩
    · rcases hmem 0 g hg with hg | ⟨-, rfl⟩
      · rw [hold 0 f hf] at he
        rw [hold 0 g hg] at he'
        exact h.zero f hf g hg hlt e he e' he'
      · have := h.number 0 f hf
        omega
    · rw [hnew] at he
      rcases hmem 0 g hg with hg | ⟨-, rfl⟩
      · rw [hold 0 g hg] at he'
        exact fun _ => h.imm_level e (himmE e he) 0 e' ⟨g, hg, he'⟩
      · exact absurd hlt (lt_irrefl _)
  · rcases hlevel a e he with he | ⟨rfl, he⟩
    · rcases hlevel b e' he' with he' | ⟨rfl, he'⟩
      · exact h.levels a b hab e he e' he'
      · -- files in levels above hold none of the new user keys
        obtain ⟨g, hg, he⟩ := he
        intro huser
        have hg1 := (h.table a g hg).range e he
        have hf1 := hfile.range e' he'
        rcases hside (by omega) a hab.le g hg with hlt | hlt
        · have := (InternalKey.user_key_le hg1.2).trans_lt (hlt.trans_le
            (InternalKey.user_key_le hf1.1))
          exact absurd huser this.ne
        · have := (InternalKey.user_key_le hf1.2).trans_lt (hlt.trans_le
            (InternalKey.user_key_le hg1.1))
          exact absurd huser this.ne'
    · rcases hlevel b e' he' with he' | ⟨rfl, -⟩
      · exact fun _ => h.imm_level e (himmE e he) b e' he'
      · exact absurd hab (lt_irrefl _)

/-! ### Results of compactions -/

/-- **Files that stay behind a compaction hold the newer entries.** -/
theorem behind (h : Arranged s) {level : ℕ} {inputs : List (FileMetaData K)}
    (hsub : ∀ f ∈ inputs, f ∈ s.current level) (hset : Settled (s.current level) inputs)
    {g f : FileMetaData K} (hg : g ∈ s.current level) (hout : g ∉ inputs) (hf : f ∈ inputs)
    {e e' : Entry K V} (he : e ∈ s.tables g.number) (he' : e' ∈ s.tables f.number) :
    Newer e e' := by
  intro huser
  have hge := ((h.table level g hg).range e he).2
  have hfe := (h.table level f (hsub f hf)).range e' he'
  rcases hset g hg hout with hbefore | hafter
  · -- the entry comes first, so it has the larger sequence number
    have hlt : e.1 < e'.1 := hge.trans_lt ((hbefore f hf).trans_le hfe.1)
    refine lt_of_le_of_ne (InternalKey.sequence_le_of_le hlt.le huser) fun heq => ?_
    have := h.unique e (Or.inr (Or.inr ⟨level, g, hg, he⟩)) e'
      (Or.inr (Or.inr ⟨level, f, hsub f hf, he'⟩)) heq.symm
    exact absurd this hlt.ne
  · have hlt := (InternalKey.user_key_le hfe.2).trans_lt ((hafter f hf).trans_le
      (InternalKey.user_key_le ((h.table level g hg).range e he).1))
    exact absurd huser hlt.ne'

end Arranged

/-- What makes the outputs of a compaction fit into the version. -/
structure Installable (s : DBState K V) (c : Compaction K) (outputs : List (FileMetaData K)) :
    Prop where
  sub0 : ∀ f ∈ c.inputs0, f ∈ s.current c.level
  sub1 : ∀ f ∈ c.inputs1, f ∈ s.current (c.level + 1)
  behind : ∀ g ∈ s.current c.level, g ∉ c.inputs0 → ∀ f ∈ c.inputs0,
    ∀ e ∈ s.tables g.number, ∀ e' ∈ s.tables f.number, Newer e e'
  apart : ∀ g ∈ s.current (c.level + 1), g ∉ c.inputs1 →
    (∀ f ∈ c.inputs0 ++ c.inputs1, g.largest < f.smallest) ∨
      ∀ f ∈ c.inputs0 ++ c.inputs1, f.largest < g.smallest
  table : ∀ f ∈ outputs, IsTableOf f (s.tables f.number)
  ordered : Ordered outputs
  /-- The outputs hold entries of the inputs. -/
  source : ∀ f ∈ outputs, ∀ e ∈ s.tables f.number,
    ∃ g ∈ c.inputs0 ++ c.inputs1, e ∈ s.tables g.number
  number : ∀ f ∈ outputs, f.number < s.next_file_number
  fresh : ∀ f ∈ outputs, ∀ g ∈ c.inputs1, f.number ≠ g.number

theorem mem_compactionEdit {v : Version K} {c : Compaction K} {outputs : List (FileMetaData K)}
    (hfresh : ∀ f ∈ outputs, ∀ g ∈ c.inputs1, f.number ≠ g.number) {i : ℕ} {f : FileMetaData K}
    (hf : f ∈ applyEdit v (DBState.compactionEdit c outputs) i) :
    f ∈ v i ∧ (i = c.level → f ∉ c.inputs0) ∧ (i = c.level + 1 → f ∉ c.inputs1) ∨
      i = c.level + 1 ∧ f ∈ outputs := by
  obtain ⟨hmem, hdel⟩ := mem_applyEdit.1 hf
  rcases hmem with hmem | hmem
  · by_cases hout : i = c.level + 1 ∧ f ∈ outputs
    · exact Or.inr hout
    refine Or.inl ⟨hmem, ?_, ?_⟩
    · rintro rfl hin
      -- nothing is added to the level of the compaction
      rw [VersionEdit.isDeleted, Bool.and_eq_false_iff] at hdel
      rcases hdel with hdel | hdel
      · have : (c.level, f.number) ∈ (DBState.compactionEdit c outputs).deleted_files :=
          mem_append_left _ (mem_map.2 ⟨f, hin, rfl⟩)
        rw [← contains_iff_mem, hdel] at this
        exact Bool.false_ne_true this
      · simp [DBState.compactionEdit] at hdel
    · rintro rfl hin
      rw [VersionEdit.isDeleted, Bool.and_eq_false_iff] at hdel
      rcases hdel with hdel | hdel
      · have : (c.level + 1, f.number) ∈ (DBState.compactionEdit c outputs).deleted_files :=
          mem_append_right _ (mem_map.2 ⟨f, hin, rfl⟩)
        rw [← contains_iff_mem, hdel] at this
        exact Bool.false_ne_true this
      · simp only [DBState.compactionEdit, any_map, Bool.not_eq_false', any_eq_true,
          comp_apply, Bool.and_eq_true, decide_eq_true_eq] at hdel
        obtain ⟨g, hg, -, hnum⟩ := hdel
        exact absurd hnum (hfresh g hg f hin)
  · obtain ⟨g, hg, heq⟩ := mem_map.1 (VersionEdit.mem_addedFiles hmem)
    obtain ⟨rfl, rfl⟩ := Prod.mk.inj heq
    exact Or.inr ⟨rfl, hg⟩

theorem Arranged.number_inj {s : DBState K V} (h : Arranged s) {level : ℕ} {f g : FileMetaData K}
    (hf : f ∈ s.current level) (hg : g ∈ s.current level) (heq : f.number = g.number) : f = g := by
  by_contra hne
  by_cases h0 : level = 0
  · subst h0
    have : Std.Symm fun f g : FileMetaData K => f.number ≠ g.number := ⟨fun _ _ h => h.symm⟩
    exact h.distinct.forall hf hg hne heq
  · -- two files of a deeper level have no entry in common
    obtain ⟨e, he, -⟩ := (h.table level f hf).smallest_mem
    have hef := (h.table level f hf).range e he
    have heg := (h.table level g hg).range e (heq ▸ he)
    rcases (h.ordered level h0).apart hf hg hne with hlt | hlt
    · exact absurd (heg.1.trans hef.2) (not_le.2 hlt)
    · exact absurd (hef.1.trans heg.2) (not_le.2 hlt)

/-- **The files after a compaction**: the others stay, the outputs are added. -/
theorem Arranged.mem_install {s : DBState K V} (h : Arranged s) {c : Compaction K}
    {outputs : List (FileMetaData K)} (hc : Installable s c outputs) {i : ℕ} {f : FileMetaData K} :
    f ∈ applyEdit s.current (DBState.compactionEdit c outputs) i ↔
      f ∈ s.current i ∧ (i = c.level → f ∉ c.inputs0) ∧ (i = c.level + 1 → f ∉ c.inputs1) ∨
        i = c.level + 1 ∧ f ∈ outputs := by
  refine ⟨mem_compactionEdit hc.fresh, ?_⟩
  rintro (⟨hf, h0, h1⟩ | ⟨rfl, hf⟩)
  · refine mem_applyEdit.2 ⟨Or.inl hf, ?_⟩
    rw [VersionEdit.isDeleted, Bool.and_eq_false_iff]
    left
    rw [← Bool.not_eq_true, contains_iff_mem]
    intro hdel
    rcases mem_append.1 hdel with hdel | hdel
    · obtain ⟨g, hg, heq⟩ := mem_map.1 hdel
      obtain ⟨rfl, hnumber⟩ := Prod.mk.inj heq
      exact h0 rfl (h.number_inj (hc.sub0 g hg) hf hnumber ▸ hg)
    · obtain ⟨g, hg, heq⟩ := mem_map.1 hdel
      obtain ⟨rfl, hnumber⟩ := Prod.mk.inj heq
      exact h1 rfl (h.number_inj (hc.sub1 g hg) hf hnumber ▸ hg)
  · have hnew : ∀ g, (c.level + 1, g) ∈ (DBState.compactionEdit c outputs).new_files ↔
        g ∈ outputs := by
      intro g
      simp [DBState.compactionEdit]
    refine mem_applyEdit.2 ⟨Or.inr ?_, ?_⟩
    · refine (VersionEdit.mem_addedFiles_iff fun g hg hkey _ => ?_).2 ((hnew f).2 hf)
      by_contra hne
      have hnonempty := fun x hx => (hc.table x hx).nonempty
      have hg := (hnew g).1 hg
      rcases hc.ordered.apart hg hf hne with hlt | hlt
      · exact absurd (hkey ▸ hnonempty g hg) (not_le.2 hlt)
      · exact absurd (hkey ▸ hnonempty f hf) (not_le.2 hlt)
    · rw [VersionEdit.isDeleted, Bool.and_eq_false_iff]
      right
      rw [Bool.not_eq_false', any_eq_true]
      exact ⟨(c.level + 1, f), (hnew f).2 hf, by simp⟩

theorem addedFiles_compactionEdit {c : Compaction K} {outputs : List (FileMetaData K)} {i : ℕ}
    (hi : i ≠ c.level + 1) : (DBState.compactionEdit c outputs).addedFiles i = [] := by
  refine eq_nil_iff_forall_not_mem.2 fun f hf => ?_
  obtain ⟨g, -, heq⟩ := mem_map.1 (VersionEdit.mem_addedFiles hf)
  exact hi (Prod.mk.inj heq).1.symm

/-- **Installing the outputs of a compaction keeps the invariant.** -/
theorem Arranged.install {s : DBState K V} (h : Arranged s) {c : Compaction K}
    {outputs : List (FileMetaData K)} (hc : Installable s c outputs) :
    Arranged { s with current := applyEdit s.current (DBState.compactionEdit c outputs) } := by
  obtain ⟨s', hs'⟩ : ∃ s' : DBState K V, s' = { s with
      current := applyEdit s.current (DBState.compactionEdit c outputs) } := ⟨_, rfl⟩
  have hcurrent : s'.current = applyEdit s.current (DBState.compactionEdit c outputs) := by rw [hs']
  have htables : s'.tables = s.tables := by rw [hs']
  have hnext : s'.next_file_number = s.next_file_number := by rw [hs']
  have hmem : ∀ i f, f ∈ s'.current i →
      f ∈ s.current i ∧ (i = c.level → f ∉ c.inputs0) ∧ (i = c.level + 1 → f ∉ c.inputs1) ∨
        i = c.level + 1 ∧ f ∈ outputs := fun i f hf => mem_compactionEdit hc.fresh (hcurrent ▸ hf)
  -- an entry stays in its level, or comes from an input
  have hlevel : ∀ i e, e ∈ s'.levelEntries i →
      (e ∈ s.levelEntries i ∧ (i = c.level → ∃ g ∈ s.current i, g ∉ c.inputs0 ∧
        e ∈ s.tables g.number)) ∨
      i = c.level + 1 ∧ ((∃ g ∈ c.inputs0, e ∈ s.tables g.number) ∨
        ∃ g ∈ c.inputs1, e ∈ s.tables g.number) := by
    rintro i e ⟨f, hf, he⟩
    rw [htables] at he
    rcases hmem i f hf with ⟨hf', h0, -⟩ | ⟨rfl, hf'⟩
    · exact Or.inl ⟨⟨f, hf', he⟩, fun hi => ⟨f, hf', h0 hi, he⟩⟩
    · obtain ⟨g, hg, he⟩ := hc.source f hf' e he
      refine Or.inr ⟨rfl, ?_⟩
      rcases mem_append.1 hg with hg | hg
      · exact Or.inl ⟨g, hg, he⟩
      · exact Or.inr ⟨g, hg, he⟩
  have h0 : ∀ g ∈ c.inputs0, ∀ e ∈ s.tables g.number, e ∈ s.levelEntries c.level :=
    fun g hg e he => ⟨g, hc.sub0 g hg, he⟩
  have h1 : ∀ g ∈ c.inputs1, ∀ e ∈ s.tables g.number, e ∈ s.levelEntries (c.level + 1) :=
    fun g hg e he => ⟨g, hc.sub1 g hg, he⟩
  have hold : ∀ i e, e ∈ s'.levelEntries i → ∃ j, e ∈ s.levelEntries j := by
    intro i e he
    rcases hlevel i e he with ⟨he, -⟩ | ⟨-, ⟨g, hg, he⟩ | ⟨g, hg, he⟩⟩
    · exact ⟨i, he⟩
    · exact ⟨_, h0 g hg e he⟩
    · exact ⟨_, h1 g hg e he⟩
  have hmemE : s'.mem = s.mem := by rw [hs']
  have himmE : s'.immEntries = s.immEntries := by rw [hs']; rfl
  have hentries : ∀ e ∈ s'.entries, e ∈ s.entries := by
    rintro e (he | he | ⟨i, he⟩)
    · exact Or.inl (hmemE ▸ he)
    · exact Or.inr (Or.inl (himmE ▸ he))
    · exact Or.inr (Or.inr (hold i e he))
  -- level 0 only loses files
  have hzero : ∃ p, s'.current 0 = (s.current 0).filter p := by
    rw [hcurrent, applyEdit, addedFiles_compactionEdit (Nat.succ_ne_zero _).symm, saveLevel]
    exact ⟨_, rfl⟩
  rw [← hs']
  refine
    { mem_sorted := hmemE ▸ h.mem_sorted
      imm_sorted := fun imm himm' => h.imm_sorted imm (by rw [hs'] at himm'; exact himm')
      table := fun i f hf => ?_
      ordered := fun i hi => ?_
      number := fun i f hf => ?_
      distinct := ?_
      limit := by rw [hs']; exact h.limit
      bounded := fun e he => by rw [hs']; exact h.bounded e (hentries e he)
      unique := fun e he e' he' => h.unique e (hentries e he) e' (hentries e' he')
      mem_imm := fun e he e' he' => h.mem_imm e (hmemE ▸ he) e' (himmE ▸ he')
      mem_level := fun e he i e' he' => ?_
      imm_level := fun e he i e' he' => ?_
      zero := fun f hf g hg hlt => ?_
      levels := fun a b hab e he e' he' => ?_ }
  · rw [htables]
    rcases hmem i f hf with ⟨hf, -, -⟩ | ⟨-, hf⟩
    · exact h.table i f hf
    · exact hc.table f hf
  · rw [hcurrent]
    have hadded : ∀ f ∈ (DBState.compactionEdit c outputs).addedFiles i,
        i = c.level + 1 ∧ f ∈ outputs := by
      intro f hf
      obtain ⟨g, hg, heq⟩ := mem_map.1 (VersionEdit.mem_addedFiles hf)
      obtain ⟨rfl, rfl⟩ := Prod.mk.inj heq
      exact ⟨rfl, hg⟩
    refine applyEdit_ordered (h.ordered i hi) ?_ ?_ ?_
    · rintro f (hf | hf)
      · exact h.wellFormed.nonempty i f hf
      · exact (hc.table f (hadded f hf).2).nonempty
    · intro f hf g hg hne
      exact hc.ordered.apart (hadded f hf).2 (hadded g hg).2 hne
    · -- an output lies between the first and the last key of the inputs
      intro f hf g hg hdel
      obtain ⟨hi', hf'⟩ := hadded f hf
      subst hi'
      have hstay : g ∉ c.inputs1 := by
        intro hin
        rcases mem_compactionEdit hc.fresh (mem_applyEdit.2 ⟨Or.inl hg, hdel⟩) with
          ⟨-, -, hout⟩ | ⟨-, hout⟩
        · exact hout rfl hin
        · exact hc.fresh g hout g hin rfl
      have hkeys : ∀ e ∈ s.tables f.number, ∃ x ∈ c.inputs0 ++ c.inputs1,
          x.smallest ≤ e.1 ∧ e.1 ≤ x.largest := by
        intro e he
        obtain ⟨x, hx, he⟩ := hc.source f hf' e he
        refine ⟨x, hx, ?_⟩
        rcases mem_append.1 hx with hx | hx
        · exact (h.table _ x (hc.sub0 x hx)).range e he
        · exact (h.table _ x (hc.sub1 x hx)).range e he
      rcases hc.apart g hg hstay with hbefore | hafter
      · obtain ⟨e, he, hfirst⟩ := (hc.table f hf').smallest_mem
        obtain ⟨x, hx, hle, -⟩ := hkeys e he
        rw [hfirst] at hle
        exact Or.inr ((hbefore x hx).trans_le hle)
      · obtain ⟨e, he, hlast⟩ := (hc.table f hf').largest_mem
        obtain ⟨x, hx, -, hle⟩ := hkeys e he
        rw [hlast] at hle
        exact Or.inl (hle.trans_lt (hafter x hx))
  · rw [hnext]
    rcases hmem i f hf with ⟨hf, -, -⟩ | ⟨-, hf⟩
    · exact h.number i f hf
    · exact hc.number f hf
  · obtain ⟨p, hp⟩ := hzero
    rw [hp]
    exact h.distinct.filter p
  · obtain ⟨j, he'⟩ := hold i e' he'
    exact h.mem_level e (hmemE ▸ he) j e' he'
  · obtain ⟨j, he'⟩ := hold i e' he'
    exact h.imm_level e (himmE ▸ he) j e' he'
  · obtain ⟨p, hp⟩ := hzero
    rw [hp] at hf hg
    rw [htables]
    exact h.zero f (mem_of_mem_filter hf) g (mem_of_mem_filter hg) hlt
  · rcases hlevel a e he with ⟨he, hstay⟩ | ⟨rfl, hin⟩
    · rcases hlevel b e' he' with ⟨he', -⟩ | ⟨rfl, ⟨f, hf, he'⟩ | ⟨f, hf, he'⟩⟩
      · exact h.levels a b hab e he e' he'
      · rcases Nat.lt_succ_iff_lt_or_eq.1 hab with hlt | heq
        · exact h.levels a _ hlt e he e' (h0 f hf e' he')
        · -- an entry that stays behind
          obtain ⟨g, hg, hout, he⟩ := hstay heq
          exact hc.behind g (heq ▸ hg) hout f hf e he e' he'
      · exact h.levels a _ hab e he e' (h1 f hf e' he')
    · rcases hlevel b e' he' with ⟨he', -⟩ | ⟨rfl, -⟩
      · rcases hin with ⟨f, hf, he⟩ | ⟨f, hf, he⟩
        · exact h.levels _ b (by omega) e (h0 f hf e he) e' he'
        · exact h.levels _ b hab e (h1 f hf e he) e' he'
      · exact absurd hab (lt_irrefl _)

end Bourbon
