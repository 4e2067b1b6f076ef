import Bourbon.Db.DbGet
import Bourbon.Db.InputClosure
import Bourbon.Db.Interleaving
import Bourbon.Db.CompactionReads

/-!
# The database is a map

Without snapshots, a run of the database is a run of a map: a write changes the map, a flush, a move
or a compaction does not, however they are interleaved.

* `Denotes` : the map that a state stands for, which is what `Get` returns (`Denotes.get_eq`);
* `Faithful` : the invariant.  From level 1 on, the entries of a user key are in one file, so that a
  compaction takes them all;
* `Faithful.step` : one step;
* `get_of_run` : `Get` after a run returns what was written last.
-/

namespace Bourbon

open List Function Option

variable {K V : Type*} [LinearOrder K]

/-! ### Maps -/

namespace BatchOp

/-- The key of an operation. -/
def key : BatchOp K V → K
  | .put key _ => key
  | .delete key => key

/-- What a read of the key returns afterwards. -/
def result : BatchOp K V → Option V
  | .put _ value => some value
  | .delete _ => none

/-- The effect of an operation on a map. -/
def apply (m : K → Option V) (op : BatchOp K V) : K → Option V := update m op.key op.result

@[simp] theorem apply_put (m : K → Option V) (key : K) (value : V) :
    (BatchOp.put key value).apply m key = some value :=
  update_self _ _ _

@[simp] theorem apply_delete (m : K → Option V) (key : K) :
    (BatchOp.delete key).apply m key = none :=
  update_self _ _ _

theorem apply_of_ne (m : K → Option V) (op : BatchOp K V) {u : K} (h : u ≠ op.key) :
    op.apply m u = m u :=
  update_of_ne h _ _

end BatchOp

/-- The state stands for the map: every read at the last sequence number has its answer there. -/
def Denotes (s : DBState K V) (m : K → Option V) : Prop :=
  ∀ u r, Reads s.entries u s.last_sequence r ↔ r = m u

section

variable {s s' : DBState K V} {m : K → Option V}

theorem Denotes.congr (h : Denotes s m) (hentries : s'.entries = s.entries)
    (hlast : s'.last_sequence = s.last_sequence) : Denotes s' m := by
  intro u r
  rw [hentries, hlast]
  exact h u r

/-- **`Get` reads the map.** -/
theorem Denotes.get_eq (h : Denotes s m) (ha : Arranged s) (hshallow : s.Shallow) (u : K) :
    s.get u s.last_sequence = m u :=
  (h u _).1 ((ha.reads_iff hshallow _).2 rfl)

/-! ### Writes -/

variable {e : Entry K V}

theorem Finds.add {A : Set (Entry K V)} {u : K} {last : ℕ} {found : Option (Entry K V)}
    (h : Finds A u last found) (hA : ∀ a ∈ A, a.1.sequence ≤ last)
    (he : e.1.sequence = last + 1) :
    Finds (insert e A) u (last + 1) (if e.1.user_key = u then some e else found) := by
  by_cases hkey : e.1.user_key = u
  · rw [if_pos hkey]
    refine ⟨fun x hx => ?_, fun hnone => (by cases hnone)⟩
    obtain rfl := some.inj hx
    refine ⟨Set.mem_insert e A, hkey, he.le, fun e' he' huser _ => ?_⟩
    rcases he' with rfl | he'
    · exact le_rfl
    · exact Newer.le (fun _ => by have := hA e' he'; omega) (hkey.trans huser.symm)
  · rw [if_neg hkey]
    refine ⟨fun x hx => ?_, fun hnone x hx huser _ => ?_⟩
    · have hnewest := h.newest x hx
      refine ⟨Set.mem_insert_of_mem e hnewest.mem, hnewest.user_key,
        hnewest.visible.trans (Nat.le_succ last), fun e' he' huser _ => ?_⟩
      rcases he' with rfl | he'
      · exact absurd huser hkey
      · exact hnewest.first e' he' huser (hA e' he')
    · rcases hx with rfl | hx
      · exact absurd huser hkey
      · exact h.absent hnone x hx huser (hA x hx)

/-- **One operation.** -/
theorem Denotes.add (h : Denotes s m) (ha : Arranged s) (hshallow : s.Shallow)
    (he : e.1.sequence = s.last_sequence + 1) (hlimit : s.last_sequence + 1 ≤ kMaxSequenceNumber) :
    Denotes { s with mem := memTableAdd s.mem e, last_sequence := s.last_sequence + 1 }
      (update m e.1.user_key (answer (some e))) := by
  have hset : DBState.entries { s with
      mem := memTableAdd s.mem e, last_sequence := s.last_sequence + 1 } = insert e s.entries := by
    ext x
    refine (or_congr_left mem_memTableAdd).trans or_assoc
  have ha' := ha.add he hlimit
  have hunique := ha'.entry_unique hshallow
  intro u r
  have hfinds := (ha.finds hshallow (u := u)).add ha.bounded he
  rw [← hset] at hfinds
  rw [hfinds.reads_iff hunique]
  by_cases hkey : e.1.user_key = u
  · rw [if_pos hkey, ← hkey, update_self]
  · rw [if_neg hkey, update_of_ne (Ne.symm hkey), ← h.get_eq ha hshallow]
    rfl

theorem Denotes.write [Inhabited V] (h : Denotes s m) (ha : Arranged s) (hshallow : s.Shallow)
    {batch : List (BatchOp K V)} (hs : s.write batch = some s') :
    Denotes s' (batch.foldl BatchOp.apply m) := by
  obtain ⟨hlimit, rfl⟩ := DBState.write_some hs
  clear hs
  induction batch generalizing s m with
  | nil => exact h
  | cons op batch ih =>
    obtain ⟨e, he, hcons, happly⟩ : ∃ e : Entry K V, e.1.sequence = s.last_sequence + 1 ∧
        batchEntries (s.last_sequence + 1) (op :: batch) =
          e :: batchEntries (s.last_sequence + 1 + 1) batch ∧
        op.apply m = update m e.1.user_key (answer (some e)) := by
      cases op with
      | put key value => exact ⟨_, rfl, rfl, rfl⟩
      | delete key => exact ⟨_, rfl, rfl, rfl⟩
    rw [length_cons] at hlimit ⊢
    have := ih (h.add ha hshallow he (by omega)) (ha.add he (by omega)) hshallow
      (by simp only; omega)
    rw [hcons, foldl_cons, foldl_cons, happly]
    convert this using 2
    simp only
    omega

/-! ### Flushes and moves -/

omit [LinearOrder K] in
theorem entries_switchMemTable (hs : s.switchMemTable = some s') : s'.entries = s.entries := by
  obtain ⟨himm, rfl⟩ := DBState.switchMemTable_some hs
  ext e
  constructor
  · rintro (he | ⟨imm, hsome, he⟩ | he)
    · cases he
    · exact Or.inl (some.inj hsome ▸ he)
    · exact Or.inr (Or.inr he)
  · rintro (he | ⟨imm, hsome, -⟩ | he)
    · exact Or.inr (Or.inl ⟨s.mem, rfl, he⟩)
    · rw [himm] at hsome
      cases hsome
    · exact Or.inr (Or.inr he)

variable {entries : List (Entry K V)} {file : FileMetaData K} {level : ℕ}

theorem entries_flush (ha : Arranged s) (hf : FlushesTo s level file entries) :
    (s.flushTo level file entries).entries = s.entries := by
  have hold := ha.tables_flushTo hf
  have himm := hf.imm
  ext e
  constructor
  · rintro (he | ⟨imm, hsome, -⟩ | ⟨i, g, hg, he⟩)
    · exact Or.inl he
    · cases hsome
    · rcases Arranged.mem_flush.1 hg with hg | ⟨-, rfl⟩
      · exact Or.inr (Or.inr ⟨i, g, hg, by rwa [← hold i g hg]⟩)
      · refine Or.inr (Or.inl ⟨entries, himm, ?_⟩)
        simpa only [update_self] using he
  · rintro (he | ⟨imm, hsome, he⟩ | ⟨i, g, hg, he⟩)
    · exact Or.inl he
    · obtain rfl := some.inj (himm.symm.trans hsome)
      refine Or.inr (Or.inr ⟨level, file, Arranged.mem_flush.2 (Or.inr ⟨rfl, rfl⟩), ?_⟩)
      simpa only [update_self] using he
    · exact Or.inr (Or.inr ⟨i, g, Arranged.mem_flush.2 (Or.inl hg),
        by simp only [hold i g hg]; exact he⟩)

omit [LinearOrder K] in
theorem entries_congr (hmem : s'.mem = s.mem) (himm : s'.imm = s.imm)
    (hcurrent : s'.current = s.current)
    (htables : ∀ level, ∀ f ∈ s.current level, s'.tables f.number = s.tables f.number) :
    s'.entries = s.entries := by
  have hlevel : ∀ level, s'.levelEntries level = s.levelEntries level := by
    intro level
    ext e
    simp only [DBState.levelEntries, hcurrent]
    exact exists_congr fun f => and_congr_right fun hf => by rw [htables level f hf]
  simp only [DBState.entries, DBState.immEntries, hmem, himm, hlevel]

/-! ### Compactions -/

/-- The file is an input of the compaction. -/
def IsInput (c : Compaction K) (level : ℕ) (f : FileMetaData K) : Prop :=
  level = c.level ∧ f ∈ c.inputs0 ∨ level = c.level + 1 ∧ f ∈ c.inputs1

/-- Entries of files that are not inputs. -/
def DBState.otherEntries (s : DBState K V) (c : Compaction K) : Set (Entry K V) :=
  {e | e ∈ s.mem ∨ e ∈ s.immEntries ∨
    ∃ level, ∃ f ∈ s.current level, ¬ IsInput c level f ∧ e ∈ s.tables f.number}

variable {c : Compaction K} {outputs : List (FileMetaData K)}

/-- **A compaction exchanges the entries of its inputs** for those of its outputs. -/
theorem Arranged.entries_install (ha : Arranged s) (hc : Installable s c outputs) :
    s.entries = {e | ∃ f ∈ c.inputs0 ++ c.inputs1, e ∈ s.tables f.number} ∪ s.otherEntries c ∧
      DBState.entries { s with current := applyEdit s.current (DBState.compactionEdit c outputs) } =
        {e | ∃ f ∈ outputs, e ∈ s.tables f.number} ∪ s.otherEntries c := by
  have hin : ∀ level f, ¬ IsInput c level f ↔
      (level = c.level → f ∉ c.inputs0) ∧ (level = c.level + 1 → f ∉ c.inputs1) := by
    intro level f
    rw [IsInput, not_or, not_and, not_and]
  constructor
  · ext e
    constructor
    · rintro (he | he | ⟨level, f, hf, he⟩)
      · exact Or.inr (Or.inl he)
      · exact Or.inr (Or.inr (Or.inl he))
      · by_cases hinput : IsInput c level f
        · refine Or.inl ⟨f, ?_, he⟩
          rcases hinput with ⟨-, hf⟩ | ⟨-, hf⟩
          · exact mem_append_left _ hf
          · exact mem_append_right _ hf
        · exact Or.inr (Or.inr (Or.inr ⟨level, f, hf, hinput, he⟩))
    · rintro (⟨f, hf, he⟩ | he | he | ⟨level, f, hf, -, he⟩)
      · rcases mem_append.1 hf with hf | hf
        · exact Or.inr (Or.inr ⟨_, f, hc.sub0 f hf, he⟩)
        · exact Or.inr (Or.inr ⟨_, f, hc.sub1 f hf, he⟩)
      · exact Or.inl he
      · exact Or.inr (Or.inl he)
      · exact Or.inr (Or.inr ⟨level, f, hf, he⟩)
  · ext e
    constructor
    · rintro (he | he | ⟨level, f, hf, he⟩)
      · exact Or.inr (Or.inl he)
      · exact Or.inr (Or.inr (Or.inl he))
      · rcases (ha.mem_install hc).1 hf with ⟨hf, hout⟩ | ⟨-, hf⟩
        · exact Or.inr (Or.inr (Or.inr ⟨level, f, hf, (hin level f).2 hout, he⟩))
        · exact Or.inl ⟨f, hf, he⟩
    · rintro (⟨f, hf, he⟩ | he | he | ⟨level, f, hf, hout, he⟩)
      · exact Or.inr (Or.inr ⟨_, f, (ha.mem_install hc).2 (Or.inr ⟨rfl, hf⟩), he⟩)
      · exact Or.inl he
      · exact Or.inr (Or.inl he)
      · exact Or.inr (Or.inr ⟨level, f,
          (ha.mem_install hc).2 (Or.inl ⟨hf, (hin level f).1 hout⟩), he⟩)

/-- From level 1 on, the entries of a user key are in one file. -/
def KeysApart (s : DBState K V) : Prop :=
  ∀ level, level ≠ 0 → ∀ f ∈ s.current level, ∀ g ∈ s.current level,
    ∀ e ∈ s.tables f.number, ∀ e' ∈ s.tables g.number, e.1.user_key = e'.1.user_key → f = g

/-- How a compaction that was started without snapshots stands to the rest of the database, after it
has handled the entries `done` of its input. -/
structure Progress (s : DBState K V) (st : CompactionState K V) (input done : List (Entry K V)) :
    Prop where
  handled : Handled s st input done
  mem : ∀ e, e ∈ input ↔
    ∃ f ∈ st.compaction.inputs0 ++ st.compaction.inputs1, e ∈ s.tables f.number
  /-- No snapshot is older than an entry of the input. -/
  covered : ∀ e ∈ input, e.1.sequence ≤ st.smallest_snapshot
  past : st.smallest_snapshot ≤ s.last_sequence
  /-- Files that came in later are newer than the input. -/
  later : ∀ level, ∀ f ∈ s.current level, f ∉ st.input_version level →
    ∀ e ∈ s.tables f.number, ∀ x ∈ input, x.1.sequence < e.1.sequence
  /-- Other files of the output level have no user key of the input. -/
  apart : ∀ g ∈ s.current (st.compaction.level + 1), g ∉ st.compaction.inputs1 →
    ∀ e ∈ s.tables g.number, ∀ x ∈ input, e.1.user_key ≠ x.1.user_key
  inside : st.compaction.level + 1 < kNumLevels

namespace Progress

variable {o : DBOptions K V} {st st' : CompactionState K V} {input done : List (Entry K V)}

/-- **A compaction without snapshots starts.** -/
theorem start (ha : Arranged s) (hkeys : KeysApart s)
    (hlimit : s.last_sequence < kMaxSequenceNumber)
    {c : Compaction K} (hc : Chosen s.current c) (hinside : c.level + 1 < kNumLevels)
    {is_manual : Bool}
    (hst : (s.startCompaction c is_manual s.last_sequence).compact = some st) :
    Progress (s.startCompaction c is_manual s.last_sequence) st
      (makeInputIterator s.tables c) [] := by
  obtain ⟨hsorted, hmem⟩ := makeInputIterator_spec ha hc
  have hdeeper : DeeperOrdered s.current c.level := fun lvl hlvl =>
    ⟨ha.ordered lvl (by have := mem_drop_range.1 hlvl; omega),
      fun f hf => (ha.table lvl f hf).nonempty⟩
  have hhandled := handled_start hlimit hsorted hdeeper hst
  obtain rfl := some.inj hst
  refine ⟨hhandled, hmem, fun e he => ?_, le_rfl, fun level f hf hout => absurd hf hout,
    fun g hg hout e he x hx heq => ?_, hinside⟩
  · obtain ⟨f, hf, he⟩ := (hmem e).1 he
    rcases mem_append.1 hf with hf | hf
    · exact ha.bounded e (Or.inr (Or.inr ⟨_, f, hc.sub f hf, he⟩))
    · exact ha.bounded e (Or.inr (Or.inr ⟨_, f, hc.sub_next f hf, he⟩))
  · obtain ⟨f, hf, hx⟩ := (hmem x).1 hx
    rcases mem_append.1 hf with hf | hf
    · exact hout (hc.mem_inputs1 ha.table hf hg hx he heq)
    · exact hout (hkeys _ (Nat.succ_ne_zero _) g hg f (hc.sub_next f hf) e he x hx heq ▸ hf)

theorem congr (h : Progress s st input done) (hw : Working o s st) {done' : List (Entry K V)}
    (hhandled : Handled s' st' input done') (hcurrent : s'.current = s.current)
    (htables : ∀ level, ∀ f ∈ s.current level, s'.tables f.number = s.tables f.number)
    (hlast : s.last_sequence ≤ s'.last_sequence) (hc : st'.compaction = st.compaction)
    (hversion : st'.input_version = st.input_version)
    (hsnapshot : st'.smallest_snapshot = st.smallest_snapshot) : Progress s' st' input done' := by
  refine ⟨hhandled, fun x => ?_, ?_, ?_, ?_, ?_, ?_⟩
  · rw [h.mem x, hc]
    refine exists_congr fun f => and_congr_right fun hf => ?_
    rcases mem_append.1 hf with hf | hf
    · rw [htables _ f (hw.sub0 f hf)]
    · rw [htables _ f (hw.sub1 f hf)]
  · rw [hsnapshot]
    exact h.covered
  · rw [hsnapshot]
    exact h.past.trans hlast
  · rw [hversion, hcurrent]
    intro level f hf
    rw [htables level f hf]
    exact h.later level f hf
  · rw [hc, hcurrent]
    intro g hg
    rw [htables _ g hg]
    exact h.apart g hg
  · rw [hc]
    exact h.inside

theorem congr_state (h : Progress s st input done) (hw : Working o s st)
    (hcurrent : s'.current = s.current) (htables : s'.tables = s.tables)
    (hlast : s.last_sequence ≤ s'.last_sequence) : Progress s' st input done :=
  h.congr hw (h.handled.sameLoop (SameLoop.refl st) (by rw [htables])) hcurrent
    (fun _ _ _ => by rw [htables]) hlast rfl rfl
    rfl

theorem mem_levelEntries (h : Progress s st input done) (hw : Working o s st) {x : Entry K V}
    (hx : x ∈ input) : x ∈ s.levelEntries st.compaction.level ∨
      x ∈ s.levelEntries (st.compaction.level + 1) := by
  obtain ⟨f, hf, hx⟩ := (h.mem x).1 hx
  rcases mem_append.1 hf with hf | hf
  · exact Or.inl ⟨f, hw.sub0 f hf, hx⟩
  · exact Or.inr ⟨f, hw.sub1 f hf, hx⟩

/-- **A flush between two rounds.** -/
theorem flush (h : Progress s st input done) (ha : Arranged s) (hw : Working o s st)
    {entries : List (Entry K V)} {file : FileMetaData K} {level : ℕ}
    (hf : FlushesTo s level file entries) :
    Progress (s.flushTo level file entries) st input done := by
  have hcur := ha.tables_flushTo hf
  obtain ⟨himm, hfile, hnumber, hside⟩ := hf
  have hold : ∀ n < s.next_file_number, update s.tables file.number entries n = s.tables n :=
    fun n hn => update_of_ne (by omega) _ _
  refine ⟨h.handled.sameLoop (SameLoop.refl st) (CompactionState.written_congr fun n hn =>
    hold n (hw.building.number n hn)), fun x => ?_, h.covered, h.past, ?_, ?_, h.inside⟩
  · rw [h.mem x]
    refine exists_congr fun f => and_congr_right fun hf => ?_
    rcases mem_append.1 hf with hf | hf
    · simp only [hcur _ f (hw.sub0 f hf)]
    · simp only [hcur _ f (hw.sub1 f hf)]
  · intro i f hf hout e he x hx
    rcases Arranged.mem_flush.1 hf with hf | ⟨-, rfl⟩
    · simp only [hcur i f hf] at he
      exact h.later i f hf hout e he x hx
    · -- the memtable is newer than all levels
      simp only [update_self] at he
      rcases h.mem_levelEntries hw hx with hx | hx
      · exact ha.imm_level e ⟨entries, himm, he⟩ _ x hx
      · exact ha.imm_level e ⟨entries, himm, he⟩ _ x hx
  · intro g hg hout e he x hx heq
    rcases Arranged.mem_flush.1 hg with hg | ⟨rfl, rfl⟩
    · simp only [hcur _ g hg] at he
      exact h.apart g hg hout e he x hx heq
    · simp only [update_self] at he
      obtain ⟨f, hf, hx⟩ := (h.mem x).1 hx
      obtain ⟨i, hi, hf⟩ : ∃ i ≤ st.compaction.level + 1, f ∈ s.current i := by
        rcases mem_append.1 hf with hf | hf
        · exact ⟨_, Nat.le_succ _, hw.sub0 f hf⟩
        · exact ⟨_, le_rfl, hw.sub1 f hf⟩
      have hxr := (ha.table i f hf).range x hx
      have her := hfile.range e he
      rcases hside (Nat.succ_ne_zero _) i hi f hf with hlt | hlt
      · have := (InternalKey.user_key_le hxr.2).trans_lt
          (hlt.trans_le (InternalKey.user_key_le her.1))
        exact absurd heq this.ne'
      · have := (InternalKey.user_key_le her.2).trans_lt
          (hlt.trans_le (InternalKey.user_key_le hxr.1))
        exact absurd heq this.ne

variable {e : Entry K V}

/-- **One round of the loop.** -/
theorem round (h : Progress s st input done) (ha : Arranged s) (hw : Working o s st)
    {rest : List (Entry K V)} (hinput : st.input = e :: rest)
    (hround : Round o s st e rest s' st') : Progress s' st' input (done ++ [e]) := by
  have hstate := hround.state
  refine h.congr hw (h.handled.round hinput hround) ?_ (hw.tables_of_grown ha hround.tables) ?_
    hround.compaction hround.input_version hround.smallest_snapshot
  · rw [hstate]
  · rw [hstate]

theorem finishOutput (h : Progress s st input done) (ha : Arranged s) (hw : Working o s st) :
    Progress (s.finishOutput o st).1 (s.finishOutput o st).2 input done := by
  obtain ⟨hgrown, hloop, -⟩ := hw.building.finishOutput
  have hstate := hgrown.state
  refine h.congr hw (h.handled.sameLoop hloop ?_) ?_ (hw.tables_of_grown ha hgrown.tables) ?_
    hloop.compaction hloop.input_version hloop.smallest_snapshot
  · rw [hgrown.written, append_nil]
  · rw [hstate]
  · rw [hstate]

/-- **In the end no read changes.** -/
theorem reads_iff (h : Progress s st input input) (ha : Arranged s) (hw : Working o s st)
    (hshallow : s.Shallow) (u : K) (r : Option V) :
    Reads ({e | e ∈ input} ∪ s.otherEntries st.compaction) u s.last_sequence r ↔
      Reads ({e | e ∈ st.written s.tables} ∪ s.otherEntries st.compaction) u s.last_sequence r := by
  -- deeper files that were there when the compaction began
  obtain ⟨deeper, hdeep⟩ : ∃ deeper : Set (Entry K V), deeper = {e | ∃ lvl,
      st.compaction.level + 2 ≤ lvl ∧ ∃ f ∈ s.current lvl, f ∈ st.input_version lvl ∧
        e ∈ s.tables f.number} := ⟨_, rfl⟩
  have hsub : deeper ⊆ s.otherEntries st.compaction := by
    rw [hdeep]
    rintro e ⟨lvl, hle, f, hf, -, he⟩
    refine Or.inr (Or.inr ⟨lvl, f, hf, ?_, he⟩)
    rintro (⟨rfl, -⟩ | ⟨rfl, -⟩)
    · omega
    · omega
  have hrest : ∀ e ∈ input, ∀ x ∈ s.otherEntries st.compaction \ deeper,
      x.1.user_key = e.1.user_key → ¬ x.1.sequence < e.1.sequence := by
    intro e he x hx huser
    obtain ⟨hother, hnot⟩ := hx
    have hlevel := h.mem_levelEntries hw he
    rw [not_lt]
    rcases hother with hx | hx | ⟨lvl, f, hf, hout, hx⟩
    · rcases hlevel with he | he
      · exact (ha.mem_level x hx _ e he).le
      · exact (ha.mem_level x hx _ e he).le
    · rcases hlevel with he | he
      · exact (ha.imm_level x hx _ e he).le
      · exact (ha.imm_level x hx _ e he).le
    · have hxl : x ∈ s.levelEntries lvl := ⟨f, hf, hx⟩
      rcases Nat.lt_trichotomy lvl st.compaction.level with hlt | rfl | hgt
      · rcases hlevel with he | he
        · exact (ha.levels _ _ hlt x hxl e he huser).le
        · exact (ha.levels _ _ (hlt.trans (Nat.lt_succ_self _)) x hxl e he huser).le
      · have hf0 : f ∉ st.compaction.inputs0 := fun hin => hout (Or.inl ⟨rfl, hin⟩)
        obtain ⟨g, hg, he⟩ := (h.mem e).1 he
        rcases mem_append.1 hg with hg | hg
        · exact (hw.behind f hf hf0 g hg x hx e he huser).le
        · exact (ha.levels _ _ (Nat.lt_succ_self _) x hxl e ⟨g, hw.sub1 g hg, he⟩ huser).le
      · rcases Nat.eq_or_lt_of_le hgt with rfl | hgt
        · exact absurd huser (h.apart f hf (fun hin => hout (Or.inr ⟨rfl, hin⟩)) x hx e he)
        · refine (h.later lvl f hf (fun hin => hnot ?_) x hx e he).le
          rw [hdeep]
          exact ⟨lvl, hgt, f, hf, hin, hx⟩
  have hholds : ∀ e ∈ deeper, ∃ lvl ∈ (List.range kNumLevels).drop (st.compaction.level + 2),
      ∃ f ∈ st.input_version lvl, f.Holds e.1.user_key := by
    rw [hdeep]
    rintro e ⟨lvl, hle, f, hf, hin, he⟩
    have hlt : lvl < kNumLevels := by
      by_contra hge
      rw [hshallow lvl (not_lt.1 hge)] at hf
      cases hf
    have hrange := (ha.table lvl f hf).range e he
    exact ⟨lvl, mem_drop_range.2 ⟨hle, hlt⟩, f, hin, InternalKey.user_key_le hrange.1,
      InternalKey.user_key_le hrange.2⟩
  have := reads_of_kept h.handled.sorted h.handled.sublist h.handled.kept hrest hholds u h.past r
  rwa [Set.union_assoc, Set.sdiff_union_of_subset hsub, Set.union_assoc,
    Set.sdiff_union_of_subset hsub] at this

/-- **No user key is written twice.** -/
theorem written_unique (h : Progress s st input input) {e' : Entry K V}
    (he : e ∈ st.written s.tables) (he' : e' ∈ st.written s.tables)
    (huser : e.1.user_key = e'.1.user_key) : e.1 = e'.1 := by
  have hno : ∀ {e e' : Entry K V}, e ∈ st.written s.tables → e' ∈ st.written s.tables →
      e.1.user_key = e'.1.user_key → ¬ e.1 < e'.1 := by
    intro e e' he he' huser hlt
    have hin := h.handled.sublist.subset he
    refine (h.handled.kept e' (h.handled.sublist.subset he')).1 he' (Or.inl ?_)
    exact ⟨e, hin, huser, hlt, h.covered e hin⟩
  rcases lt_trichotomy e.1 e'.1 with hlt | heq | hlt
  · exact absurd hlt (hno he he' huser)
  · exact heq
  · exact absurd hlt (hno he' he huser.symm)

end Progress

/-! ### User keys stay in one file -/

omit [LinearOrder K] in
theorem KeysApart.congr (h : KeysApart s) (hcurrent : s'.current = s.current)
    (htables : ∀ level, ∀ f ∈ s.current level, s'.tables f.number = s.tables f.number) :
    KeysApart s' := by
  intro level h0 f hf g hg
  rw [hcurrent] at hf hg
  rw [htables level f hf, htables level g hg]
  exact h level h0 f hf g hg

theorem KeysApart.flush (h : KeysApart s) (ha : Arranged s)
    (hf : FlushesTo s level file entries) : KeysApart (s.flushTo level file entries) := by
  have hcur := ha.tables_flushTo hf
  obtain ⟨-, hfile, -, hside⟩ := hf
  -- an old file of the level has no user key of the new one
  have hnew : level ≠ 0 → ∀ g ∈ s.current level, ∀ e ∈ s.tables g.number, ∀ e' ∈ entries,
      e.1.user_key ≠ e'.1.user_key := by
    intro h0 g hg e he e' he' heq
    have her := (ha.table level g hg).range e he
    have her' := hfile.range e' he'
    rcases hside h0 level le_rfl g hg with hlt | hlt
    · have := (InternalKey.user_key_le her.2).trans_lt
        (hlt.trans_le (InternalKey.user_key_le her'.1))
      exact absurd heq this.ne
    · have := (InternalKey.user_key_le her'.2).trans_lt
        (hlt.trans_le (InternalKey.user_key_le her.1))
      exact absurd heq this.ne'
  intro i h0 f hf g hg e he e' he' huser
  rcases Arranged.mem_flush.1 hf with hf' | ⟨rfl, rfl⟩
  · simp only [hcur i f hf'] at he
    rcases Arranged.mem_flush.1 hg with hg' | ⟨rfl, rfl⟩
    · simp only [hcur i g hg'] at he'
      exact h i h0 f hf' g hg' e he e' he' huser
    · simp only [update_self] at he'
      exact absurd huser (hnew h0 f hf' e he e' he')
  · simp only [update_self] at he
    rcases Arranged.mem_flush.1 hg with hg' | ⟨-, rfl⟩
    · simp only [hcur i g hg'] at he'
      exact absurd huser.symm (hnew h0 g hg' e' he' e he)
    · rfl

theorem KeysApart.install (h : KeysApart s) (ha : Arranged s) (hc : Installable s c outputs)
    (hold : ∀ g ∈ s.current (c.level + 1), g ∉ c.inputs1 → ∀ f ∈ outputs,
      ∀ e ∈ s.tables g.number, ∀ x ∈ s.tables f.number, e.1.user_key ≠ x.1.user_key)
    (hnew : ∀ f ∈ outputs, ∀ g ∈ outputs, ∀ e ∈ s.tables f.number, ∀ e' ∈ s.tables g.number,
      e.1.user_key = e'.1.user_key → f = g) :
    KeysApart { s with current := applyEdit s.current (DBState.compactionEdit c outputs) } := by
  intro i h0 f hf g hg e he e' he' huser
  rcases (ha.mem_install hc).1 hf with ⟨hf', -, hf1⟩ | ⟨rfl, hf'⟩
  · rcases (ha.mem_install hc).1 hg with ⟨hg', -, -⟩ | ⟨rfl, hg'⟩
    · exact h i h0 f hf' g hg' e he e' he' huser
    · exact absurd huser (hold f hf' (hf1 rfl) g hg' e he e' he')
  · rcases (ha.mem_install hc).1 hg with ⟨hg', -, hg1⟩ | ⟨-, hg'⟩
    · exact absurd huser.symm (hold g hg' (hg1 rfl) f hf' e' he' e he)
    · exact hnew f hf' g hg' e he e' he' huser

/-! ### The last level -/

/-- No file gets behind the last level. -/
structure Leveled (s : DBState K V) : Prop where
  shallow : s.Shallow
  inside : ∀ st, s.compact = some st → st.compaction.level + 1 < kNumLevels

namespace Leveled

variable {o : DBOptions K V}

theorem install (hshallow : s.Shallow) (ha : Arranged s) {c : Compaction K}
    {outputs : List (FileMetaData K)} (hc : Installable s c outputs)
    (hinside : c.level + 1 < kNumLevels) :
    DBState.Shallow { s with
      current := applyEdit s.current (DBState.compactionEdit c outputs) } := by
  intro i hi
  refine eq_nil_iff_forall_not_mem.2 fun f hf => ?_
  rcases (ha.mem_install hc).1 hf with ⟨hf, -⟩ | ⟨rfl, -⟩
  · rw [hshallow i hi] at hf
    cases hf
  · omega

theorem step [Inhabited V] (h : Leveled s) (hf : Consistent o s) {a : DBAction K V}
    (hs : dbStep o s a = some s') : Leveled s' := by
  have ha := hf.arranged
  cases a with
  | write batch =>
    obtain ⟨-, rfl⟩ := DBState.write_some hs
    exact ⟨h.shallow, h.inside⟩
  | switchMemTable =>
    obtain ⟨-, rfl⟩ := DBState.switchMemTable_some hs
    exact ⟨h.shallow, h.inside⟩
  | compactMemTable =>
    obtain ⟨_, _, _, -, -, -, hle, rfl⟩ := compactMemTable_inv ha hs
    refine ⟨fun i hi => eq_nil_iff_forall_not_mem.2 fun f hmem => ?_, h.inside⟩
    rcases Arranged.mem_flush.1 hmem with hmem | ⟨rfl, -⟩
    · rw [h.shallow i hi] at hmem
      cases hmem
    · have : kMaxMemCompactLevel < kNumLevels := by decide
      omega
  | automaticCompaction file_to_compact smallest_snapshot =>
    obtain ⟨c, hidle, hc, -, hinside, ⟨hmove, rfl⟩ | rfl⟩ := automaticCompaction_inv ha hs
    · obtain ⟨-, hinst, heq⟩ := moveFile_inv ha hc hmove
      rw [heq]
      exact ⟨install h.shallow ha hinst hinside, fun st hst =>
        absurd (hidle.symm.trans hst) (some_ne_none st).symm⟩
    · refine ⟨h.shallow, fun st hst => ?_⟩
      obtain rfl := some.inj hst
      exact hinside
  | manualCompaction level start limit smallest_snapshot =>
    obtain ⟨c, hc, hinside, rfl⟩ := manualCompaction_inv ha hs
    refine ⟨h.shallow, fun st hst => ?_⟩
    obtain rfl := some.inj hst
    exact hinside
  | compactEntry =>
    obtain ⟨st, e, rest, hst, hinput⟩ := DBState.compactEntry_some hs
    obtain ⟨s₁, st₁, hs₁, hround⟩ := compactEntry_round (hf.working st hst).building hst hinput
    obtain rfl := some.inj (hs₁.symm.trans hs)
    have hcurrent : s₁.current = s.current := by rw [hround.state]
    refine ⟨fun i hi => hcurrent ▸ h.shallow i hi, fun st' hst' => ?_⟩
    obtain rfl := some.inj (hround.compact.symm.trans hst')
    rw [hround.compaction]
    exact h.inside st hst
  | installCompactionResults =>
    obtain ⟨st, hst, hinput, rfl⟩ := DBState.installCompactionResults_some hs
    obtain ⟨ha', hinst⟩ := hf.installable hst hinput
    obtain ⟨hgrown, hloop, -⟩ := (hf.working st hst).building.finishOutput
    have hcurrent : (s.finishOutput o st).1.current = s.current := by rw [hgrown.state]
    refine ⟨install (fun i hi => hcurrent ▸ h.shallow i hi) ha' hinst ?_,
      fun st' hst' => (by cases hst')⟩
    rw [hloop.compaction]
    exact h.inside st hst
  | abortCompaction =>
    obtain rfl := some.inj hs
    exact ⟨h.shallow, fun st hst => (by cases hst)⟩

end Leveled

/-! ### Steps -/

/-- The invariant of a database without snapshots. -/
structure Faithful (o : DBOptions K V) (s : DBState K V) : Prop where
  consistent : Consistent o s
  shallow : s.Shallow
  keys : KeysApart s
  limit : s.last_sequence < kMaxSequenceNumber
  progress : ∀ st, s.compact = some st → ∃ input done, Progress s st input done

/-- A step without snapshots: compactions keep what the last sequence number sees.  Sequence numbers
stay below the largest one. -/
def NoSnapshot (o : DBOptions K V) (s : DBState K V) (a : DBAction K V) : Prop :=
  FlushApart o s a ∧
    match a with
    | .write batch => s.last_sequence + batch.length < kMaxSequenceNumber
    | .automaticCompaction _ smallest_snapshot => smallest_snapshot = s.last_sequence
    | .manualCompaction _ _ _ smallest_snapshot => smallest_snapshot = s.last_sequence
    | _ => True

instance (o : DBOptions K V) (s : DBState K V) (a : DBAction K V) :
    Decidable (NoSnapshot o s a) :=
  @instDecidableAnd _ _ inferInstance
    (match a with
    | .write batch => Nat.decLt (s.last_sequence + batch.length) kMaxSequenceNumber
    | .automaticCompaction _ smallest_snapshot => Nat.decEq smallest_snapshot s.last_sequence
    | .manualCompaction _ _ _ smallest_snapshot => Nat.decEq smallest_snapshot s.last_sequence
    | .switchMemTable => isTrue trivial
    | .compactMemTable => isTrue trivial
    | .compactEntry => isTrue trivial
    | .installCompactionResults => isTrue trivial
    | .abortCompaction => isTrue trivial)

/-- The operations of a step. -/
def DBAction.ops : DBAction K V → List (BatchOp K V)
  | .write batch => batch
  | _ => []

namespace Faithful

variable {o : DBOptions K V} {m : K → Option V}

theorem leveled (h : Faithful o s) : Leveled s := by
  refine ⟨h.shallow, fun st hst => ?_⟩
  obtain ⟨input, done, hp⟩ := h.progress st hst
  exact hp.inside

theorem compactMemTable (h : Faithful o s) (hd : Denotes s m)
    (hok : FlushApart o s .compactMemTable) (hshallow : s'.Shallow)
    (hs : s.compactMemTable o = some s') : Faithful o s' ∧ Denotes s' m := by
  have hconsistent := h.consistent.compactMemTable hok hs
  have ha := h.consistent.arranged
  obtain ⟨entries, file, level, -, -, hf, -, rfl⟩ := compactMemTable_inv ha hs
  refine ⟨⟨hconsistent, hshallow, h.keys.flush ha hf, h.limit, fun st hst => ?_⟩,
    hd.congr (entries_flush ha hf) rfl⟩
  obtain ⟨input, done, hp⟩ := h.progress st hst
  exact ⟨input, done, hp.flush ha (h.consistent.working st hst) hf⟩

variable {c : Compaction K}

theorem start (h : Faithful o s) (hd : Denotes s m) {is_manual : Bool}
    (hc : Chosen s.current c) (hinside : c.level + 1 < kNumLevels)
    (hconsistent : Consistent o (s.startCompaction c is_manual s.last_sequence)) :
    Faithful o (s.startCompaction c is_manual s.last_sequence) ∧
      Denotes (s.startCompaction c is_manual s.last_sequence) m :=
  ⟨⟨hconsistent, h.shallow, h.keys, h.limit, fun _ hst =>
    ⟨_, _, Progress.start h.consistent.arranged h.keys h.limit hc hinside hst⟩⟩, hd⟩

theorem moveFile (h : Faithful o s) (hd : Denotes s m)
    (hc : Chosen s.current c) {max_file_size : ℕ} (hmove : c.isTrivialMove max_file_size = true)
    (hidle : s.compact = none) (hconsistent : Consistent o (s.moveFile c))
    (hshallow : (s.moveFile c).Shallow) :
    Faithful o (s.moveFile c) ∧ Denotes (s.moveFile c) m := by
  have ha := h.consistent.arranged
  obtain ⟨hnil, hinst, heq⟩ := moveFile_inv ha hc hmove
  obtain ⟨hbefore, hafter⟩ := ha.entries_install hinst
  rw [heq] at hconsistent hshallow ⊢
  refine ⟨⟨hconsistent, hshallow, ?_, h.limit, fun st hst =>
    absurd (hidle.symm.trans hst) (some_ne_none st).symm⟩, hd.congr ?_ rfl⟩
  · refine h.keys.install ha hinst (fun g hg hout f hf e he x hx huser => ?_)
      fun f hf g hg e he e' he' huser => ?_
    · exact hout (hc.mem_inputs1 ha.table hf hg hx he huser)
    · -- there is one input only
      simp only [Compaction.isTrivialMove, Bool.and_eq_true, decide_eq_true_eq] at hmove
      obtain ⟨x, hx⟩ := length_eq_one_iff.1 hmove.1.1
      rw [hx] at hf hg
      rw [mem_singleton.1 hf, mem_singleton.1 hg]
  · rw [hbefore, hnil, append_nil]
    exact hafter

theorem installCompactionResults (h : Faithful o s) (hd : Denotes s m) (hshallow' : s'.Shallow)
    (hs : s.installCompactionResults o = some s') : Faithful o s' ∧ Denotes s' m := by
  have hconsistent := h.consistent.installCompactionResults hs
  obtain ⟨st, hst, hinput, rfl⟩ := DBState.installCompactionResults_some hs
  have hw := h.consistent.working st hst
  obtain ⟨input, done, hp⟩ := h.progress st hst
  obtain ⟨hgrown, hloop, hclosed⟩ := hw.building.finishOutput
  obtain ⟨ha, hinst⟩ := h.consistent.installable hst hinput
  have hw' := (hw.finishOutput h.consistent.arranged).1
  have hp' := hp.finishOutput h.consistent.arranged hw
  have htables := hw.tables_of_grown h.consistent.arranged hgrown.tables
  have hstate := hgrown.state
  have hcurrent : (s.finishOutput o st).1.current = s.current := by rw [hstate]
  have hlast : (s.finishOutput o st).1.last_sequence = s.last_sequence := by rw [hstate]
  have hd' : Denotes (s.finishOutput o st).1 m :=
    hd.congr (entries_congr (by rw [hstate]) (by rw [hstate]) hcurrent htables) hlast
  have hkeys := h.keys.congr hcurrent htables
  have hshallow : (s.finishOutput o st).1.Shallow := by
    intro i hi
    rw [hcurrent]
    exact h.shallow i hi
  -- everything has been handled and written
  obtain rfl : done = input := by
    rw [hp'.handled.split, hloop.input, hinput, append_nil]
  have hwritten : ∀ e, e ∈ (s.finishOutput o st).2.written (s.finishOutput o st).1.tables ↔
      ∃ f ∈ (s.finishOutput o st).2.outputs, e ∈ (s.finishOutput o st).1.tables f.number := by
    intro e
    rw [CompactionState.written, hclosed]
    simp
  clear hs hgrown hloop hclosed hp hw hstate htables hd hst
  generalize s.finishOutput o st = r at *
  obtain ⟨s₁, st₁⟩ := r
  simp only at *
  obtain ⟨hbefore, hafter⟩ := ha.entries_install hinst
  refine ⟨⟨hconsistent, hshallow', ?_, hlast ▸ h.limit,
    fun st' hst' => (by cases hst')⟩, fun u r => ?_⟩
  · refine hkeys.install ha hinst (fun g hg hout f hf e he x hx => ?_)
      fun f hf g hg e he e' he' huser => ?_
    · exact hp'.apart g hg hout e he x (hp'.handled.sublist.subset ((hwritten x).2 ⟨f, hf, hx⟩))
    · -- two output files have no key in common
      by_contra hne
      have hkey := hp'.written_unique ((hwritten e).2 ⟨f, hf, he⟩) ((hwritten e').2 ⟨g, hg, he'⟩)
        huser
      have hef := (hinst.table f hf).range e he
      have heg := (hinst.table g hg).range e' he'
      rcases hinst.ordered.apart hf hg hne with hlt | hlt
      · exact absurd (hef.2.trans_lt (hlt.trans_le heg.1)) (hkey ▸ lt_irrefl _)
      · exact absurd (heg.2.trans_lt (hlt.trans_le hef.1)) (hkey ▸ lt_irrefl _)
  · have hreads := hp'.reads_iff ha hw' hshallow u r
    have hin : {e | e ∈ done} =
        {e | ∃ f ∈ st₁.compaction.inputs0 ++ st₁.compaction.inputs1, e ∈ s₁.tables f.number} :=
      Set.ext hp'.mem
    have hout : {e | e ∈ st₁.written s₁.tables} = {e | ∃ f ∈ st₁.outputs, e ∈ s₁.tables f.number} :=
      Set.ext hwritten
    rw [hin, ← hbefore, hout, ← hafter] at hreads
    exact hreads.symm.trans (hd' u r)

/-- **One step of the database is a step of the map.** -/
theorem step [Inhabited V] (h : Faithful o s) (hd : Denotes s m) {a : DBAction K V}
    (hok : NoSnapshot o s a) (hs : dbStep o s a = some s') :
    Faithful o s' ∧ Denotes s' (a.ops.foldl BatchOp.apply m) := by
  have hconsistent := h.consistent.step hok.1 hs
  have hshallow := (h.leveled.step h.consistent hs).shallow
  have ha := h.consistent.arranged
  cases a with
  | write batch =>
    have hd' := hd.write ha h.shallow hs
    have hlimit : s.last_sequence + batch.length < kMaxSequenceNumber := hok.2
    obtain ⟨-, rfl⟩ := DBState.write_some hs
    refine ⟨⟨hconsistent, h.shallow, h.keys, hlimit, fun st hst => ?_⟩, hd'⟩
    obtain ⟨input, done, hp⟩ := h.progress st hst
    exact ⟨input, done, hp.congr_state (h.consistent.working st hst) rfl rfl
      (Nat.le_add_right _ _)⟩
  | switchMemTable =>
    have hentries := entries_switchMemTable hs
    obtain ⟨-, rfl⟩ := DBState.switchMemTable_some hs
    refine ⟨⟨hconsistent, h.shallow, h.keys, h.limit, fun st hst => ?_⟩, hd.congr hentries rfl⟩
    obtain ⟨input, done, hp⟩ := h.progress st hst
    exact ⟨input, done, hp.congr_state (h.consistent.working st hst) rfl rfl le_rfl⟩
  | compactMemTable => exact h.compactMemTable hd hok.1 hshallow hs
  | automaticCompaction file_to_compact smallest_snapshot =>
    obtain rfl : smallest_snapshot = s.last_sequence := hok.2
    obtain ⟨c, hidle, hc, -, hinside, ⟨hmove, rfl⟩ | rfl⟩ := automaticCompaction_inv ha hs
    · exact h.moveFile hd hc hmove hidle hconsistent hshallow
    · exact h.start hd hc hinside hconsistent
  | manualCompaction level start limit smallest_snapshot =>
    obtain rfl : smallest_snapshot = s.last_sequence := hok.2
    obtain ⟨c, hc, hinside, rfl⟩ := manualCompaction_inv ha hs
    exact h.start hd hc hinside hconsistent
  | compactEntry =>
    obtain ⟨st, e, rest, hst, hinput⟩ := DBState.compactEntry_some hs
    have hw := h.consistent.working st hst
    obtain ⟨input, done, hp⟩ := h.progress st hst
    obtain ⟨s₁, st₁, hs₁, hround⟩ := compactEntry_round hw.building hst hinput
    obtain rfl := some.inj (hs₁.symm.trans hs)
    have htables := hw.tables_of_grown ha hround.tables
    have hstate := hround.state
    have hcurrent : s₁.current = s.current := by rw [hstate]
    have hlast : s₁.last_sequence = s.last_sequence := by rw [hstate]
    refine ⟨⟨hconsistent, hshallow, h.keys.congr hcurrent htables, hlast ▸ h.limit,
        fun st' hst' => ?_⟩,
      hd.congr (entries_congr (by rw [hstate]) (by rw [hstate]) hcurrent htables) hlast⟩
    obtain rfl := some.inj (hround.compact.symm.trans hst')
    exact ⟨input, done ++ [e], hp.round ha hw hinput hround⟩
  | installCompactionResults => exact h.installCompactionResults hd hshallow hs
  | abortCompaction =>
    obtain rfl := some.inj hs
    exact ⟨⟨hconsistent, h.shallow, h.keys, h.limit, fun st hst => (by cases hst)⟩, hd⟩

theorem init (o : DBOptions K V) : Faithful o DBState.init :=
  ⟨Consistent.init o, fun _ _ => rfl, fun _ _ f hf => absurd hf not_mem_nil,
    (by decide : 0 < kMaxSequenceNumber), fun st hst => (by cases hst)⟩

end Faithful

theorem denotes_init : Denotes (DBState.init : DBState K V) fun _ => none := by
  intro u r
  rw [entries_init]
  cases r with
  | none => exact iff_of_true (Or.inr fun e he => absurd he (Set.notMem_empty e)) rfl
  | some v => exact iff_of_false (fun ⟨e, h, _⟩ => h.mem) (by rintro ⟨⟩)

/-- **What a run of the database does to the map.** -/
theorem faithful_of_run [Inhabited V] {o : DBOptions K V} {m : K → Option V}
    {as : List (DBAction K V)} (h : Faithful o s) (hd : Denotes s m)
    (hok : Steps.Meets (dbStep o) (NoSnapshot o) s as)
    (hrun : Steps.run (dbStep o) s as = some s') :
    Faithful o s' ∧ Denotes s' ((as.flatMap DBAction.ops).foldl BatchOp.apply m) := by
  induction as generalizing s m with
  | nil =>
    obtain rfl := some.inj hrun
    exact ⟨h, hd⟩
  | cons a as ih =>
    obtain ⟨ha, hrest⟩ := hok
    rw [Steps.run] at hrun
    obtain ⟨s₁, hs₁, hrun⟩ := bind_eq_some_iff.1 hrun
    obtain ⟨h₁, hd₁⟩ := h.step hd ha hs₁
    rw [flatMap_cons, foldl_append]
    exact ih h₁ hd₁ (hrest s₁ hs₁) hrun

end

/-- **`Get` after a run returns what was written last.** -/
theorem get_of_run [Inhabited V] {o : DBOptions K V} {as : List (DBAction K V)} {s : DBState K V}
    (hok : Steps.Meets (dbStep o) (NoSnapshot o) DBState.init as)
    (hrun : Steps.run (dbStep o) DBState.init as = some s) (u : K) :
    s.get u s.last_sequence = (as.flatMap DBAction.ops).foldl BatchOp.apply (fun _ => none) u := by
  obtain ⟨h, hd⟩ := faithful_of_run (Faithful.init o) denotes_init hok hrun
  exact hd.get_eq h.consistent.arranged h.shallow u

/-- The two values of a key are flushed to levels 2 and 1; a compaction leaves the second one. -/
theorem get_of_run_compacted :
    let actions : List (DBAction ℕ ℕ) :=
      [.write [.put 1 5], .switchMemTable, .compactMemTable, .write [.put 1 6], .switchMemTable,
        .compactMemTable, .manualCompaction 1 none none 2, .compactEntry, .compactEntry,
        .installCompactionResults]
    ∃ s, Steps.run (dbStep ⟨8, length, length⟩) .init actions = some s ∧
      (s.current 1, (s.current 2).map fun f => s.tables f.number) =
        ([], [[(⟨1, 2, .value⟩, 6)]]) ∧
      s.get 1 s.last_sequence = some 6 := by
  intro actions
  have hok : Steps.Meets (dbStep ⟨8, length, length⟩) (NoSnapshot ⟨8, length, length⟩) .init
      actions := by decide +kernel
  have hend : (Steps.run (dbStep ⟨8, length, length⟩) .init actions).map
      (fun s => (s.current 1, (s.current 2).map fun f => s.tables f.number)) =
        some ([], [[(⟨1, 2, .value⟩, 6)]]) := by decide +kernel
  obtain ⟨s, hs, hcurrent⟩ := map_eq_some_iff.1 hend
  exact ⟨s, hs, hcurrent, get_of_run hok hs 1⟩

end Bourbon
