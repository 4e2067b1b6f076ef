import Bourbon.Db.LevelOrder

/-!
# A running compaction

`DoCompactionWork` takes the merged entries of its inputs one by one, drops some of them and writes
the others to output files.  The outputs enter the version at the end, and until then memtables can
be flushed.

* `mergeEntries_sorted` : the merging iterator delivers strictly increasing keys;
* `Working` : the invariant of a running compaction;
* `Working.start`, `Working.compactEntry` : it holds at the start and after every entry;
* `Working.installable` : in the end the outputs fit into the version.
-/

namespace Bourbon

open List Function

variable {K V : Type*} [LinearOrder K]

/-! ### The merging iterator -/

theorem mergeTwo_eq (left right : List (Entry K V)) :
    mergeTwo left right = List.merge left right fun a b => decide (a.1 ≤ b.1) := by
  induction left generalizing right with
  | nil => rw [mergeTwo, nil_merge]
  | cons a left ih =>
    induction right with
    | nil => simp [mergeTwo, ih]
    | cons b right ih' =>
      by_cases h : a.1 ≤ b.1
      · simp [mergeTwo, ih, h]
      · rw [cons_merge_cons, if_neg (by simpa using h), ← ih']
        simp [mergeTwo, h]

variable {children : List (List (Entry K V))} {e : Entry K V}

theorem mem_mergeEntries :
    e ∈ mergeEntries children ↔ ∃ child ∈ children, e ∈ child := by
  induction children with
  | nil => simp [mergeEntries]
  | cons child children ih => simp [mergeEntries, mergeTwo_eq, mem_merge, ih]

/-- **The merging iterator is strictly increasing** if its children are and share no key. -/
theorem mergeEntries_sorted
    (hs : ∀ child ∈ children, child.Pairwise fun a b => a.1 < b.1)
    (hd : children.Pairwise fun c c' => ∀ a ∈ c, ∀ b ∈ c', a.1 ≠ b.1) :
    (mergeEntries children).Pairwise fun a b => a.1 < b.1 := by
  induction children with
  | nil => exact List.Pairwise.nil
  | cons child children ih =>
    obtain ⟨hcross, hrest⟩ := pairwise_cons.1 hd
    have hchild := hs child mem_cons_self
    have htail := ih (fun c hc => hs c (mem_cons_of_mem child hc)) hrest
    -- sorted with repetitions
    have hle : (mergeEntries (child :: children)).Pairwise fun a b =>
        decide (a.1 ≤ b.1) = true := by
      rw [mergeEntries, mergeTwo_eq]
      refine pairwise_merge (fun a b c hab hbc => ?_) (fun a b => ?_) _ _
        (hchild.imp fun h => decide_eq_true h.le) (htail.imp fun h => decide_eq_true h.le)
      · exact decide_eq_true ((of_decide_eq_true hab).trans (of_decide_eq_true hbc))
      · rcases le_total a.1 b.1 with h | h
        · simp [h]
        · simp [h]
    -- no repetitions
    have hne : (mergeEntries (child :: children)).Pairwise fun a b => a.1 ≠ b.1 := by
      rw [mergeEntries, mergeTwo_eq]
      refine (List.Perm.pairwise_iff (fun {a b} hab => Ne.symm hab) (merge_perm_append _)).2 ?_
      refine pairwise_append.2 ⟨hchild.imp ne_of_lt, htail.imp ne_of_lt, fun a ha b hb => ?_⟩
      obtain ⟨c, hc, hb⟩ := mem_mergeEntries.1 hb
      exact hcross c hc a ha b hb
    exact (hle.and hne).imp fun h => lt_of_le_of_ne (of_decide_eq_true h.1) h.2

omit [LinearOrder K] in
theorem Newer.ne {e' : Entry K V} (h : Newer e e') : e.1 ≠ e'.1 := fun heq =>
  absurd (congrArg InternalKey.sequence heq).symm (h (congrArg InternalKey.user_key heq)).ne

variable {s : DBState K V}

theorem makeInputIterator_spec (ha : Arranged s) {c : Compaction K}
    (hc : Chosen s.current c) :
    ((makeInputIterator s.tables c).Pairwise fun a b => a.1 < b.1) ∧
      ∀ e, e ∈ makeInputIterator s.tables c ↔
        ∃ f ∈ c.inputs0 ++ c.inputs1, e ∈ s.tables f.number := by
  have htable1 : ∀ f ∈ c.inputs1, IsTableOf f (s.tables f.number) :=
    fun f hf => ha.table _ f (hc.sub_next f hf)
  have hsorted1 : (c.inputs1.flatMap fun f => s.tables f.number).Pairwise fun a b => a.1 < b.1 := by
    refine (ordered_iff_pairwise htable1).1 ?_
    obtain ⟨smallest, largest, -, heq⟩ := hc.inputs1
    rw [heq]
    exact (ha.ordered _ (Nat.succ_ne_zero _)).filter _
  -- the two levels share no key
  have hcross : ∀ f ∈ c.inputs0, ∀ a ∈ s.tables f.number,
      ∀ b ∈ c.inputs1.flatMap fun f => s.tables f.number, a.1 ≠ b.1 := by
    intro f hf a hmem b hb
    obtain ⟨g, hg, hb⟩ := mem_flatMap.1 hb
    exact (ha.levels _ _ (Nat.lt_succ_self _) a ⟨f, hc.sub f hf, hmem⟩ b
      ⟨g, hc.sub_next g hg, hb⟩).ne
  by_cases h0 : c.level = 0
  · rw [makeInputIterator, if_pos h0]
    refine ⟨mergeEntries_sorted (fun child hchild => ?_) ?_, fun e => ?_⟩
    · rcases mem_append.1 hchild with hchild | hchild
      · obtain ⟨f, hf, rfl⟩ := mem_map.1 hchild
        exact (ha.table _ f (hc.sub f hf)).sorted
      · rw [mem_singleton.1 hchild]
        exact hsorted1
    · refine pairwise_append.2 ⟨pairwise_map.2 ?_, pairwise_singleton _ _, ?_⟩
      · have hdistinct := ha.distinct
        rw [← h0] at hdistinct
        refine (hdistinct.sublist (hc.sublist h0)).imp_of_mem fun {f g} hf hg hne a hmem b hb => ?_
        have hf := hc.sub f hf
        have hg := hc.sub g hg
        rw [h0] at hf hg
        rcases lt_or_gt_of_ne hne with hlt | hlt
        · exact (ha.zero g hg f hf hlt b hb a hmem).ne.symm
        · exact (ha.zero f hf g hg hlt a hmem b hb).ne
      · intro child hchild child' hchild' a hmem
        obtain ⟨f, hf, rfl⟩ := mem_map.1 hchild
        rw [mem_singleton.1 hchild']
        exact hcross f hf a hmem
    · simp only [mem_mergeEntries, mem_append, mem_map, mem_singleton, or_and_right,
        exists_or, exists_exists_and_eq_and, exists_eq_left, mem_flatMap]
  · rw [makeInputIterator, if_neg h0]
    refine ⟨mergeEntries_sorted (fun child hchild => ?_) ?_, fun e => ?_⟩
    · rcases mem_append.1 hchild with hchild | hchild
      · rw [mem_singleton.1 hchild]
        exact (ordered_iff_pairwise fun f hf => ha.table _ f (hc.sub f hf)).1 (hc.ordered h0)
      · rw [mem_singleton.1 hchild]
        exact hsorted1
    · refine pairwise_append.2 ⟨pairwise_singleton _ _, pairwise_singleton _ _, ?_⟩
      intro child hchild child' hchild' a hmem
      rw [mem_singleton.1 hchild] at hmem
      rw [mem_singleton.1 hchild']
      obtain ⟨f, hf, hmem⟩ := mem_flatMap.1 hmem
      exact hcross f hf a hmem
    · simp only [mem_mergeEntries, mem_append, mem_singleton, or_and_right, exists_or,
        exists_eq_left, mem_flatMap]

/-! ### Output files -/

namespace CompactionState

/-- What the compaction has written. -/
def written (tables : ℕ → List (Entry K V)) (st : CompactionState K V) : List (Entry K V) :=
  (st.outputs.flatMap fun f => tables f.number) ++ (st.builder.map Prod.snd).getD []

/-- The numbers of the output files. -/
def numbers (st : CompactionState K V) : Set ℕ :=
  {n | (∃ f ∈ st.outputs, f.number = n) ∨ ∃ entries, st.builder = some (n, entries)}

end CompactionState

/-- The output files: metadata fits the contents, numbers are used once. -/
structure Building (o : DBOptions K V) (s : DBState K V) (st : CompactionState K V) : Prop where
  output : ∀ f ∈ st.outputs, o.fileMetaData f.number (s.tables f.number) = some f
  nonempty : ∀ number entries, st.builder = some (number, entries) → entries ≠ []
  distinct : ∀ number entries, st.builder = some (number, entries) →
    ∀ f ∈ st.outputs, f.number ≠ number
  number : ∀ n ∈ st.numbers, n < s.next_file_number

/-- Output files have grown by some entries.  Tables with other numbers stay. -/
structure Grown (o : DBOptions K V) (s : DBState K V) (st : CompactionState K V)
    (s' : DBState K V) (st' : CompactionState K V) (added : List (Entry K V)) : Prop where
  building : Building o s' st'
  written : st'.written s'.tables = st.written s.tables ++ added
  next : s.next_file_number ≤ s'.next_file_number
  tables : ∀ n < s.next_file_number, n ∉ st.numbers → s'.tables n = s.tables n
  numbers : ∀ n ∈ st'.numbers, n ∈ st.numbers ∨ s.next_file_number ≤ n
  /-- Memtables and the version stay. -/
  state : s' = { s with tables := s'.tables, next_file_number := s'.next_file_number }

/-- The same compaction at the same point of its loop. -/
structure SameLoop (st st' : CompactionState K V) : Prop where
  compaction : st'.compaction = st.compaction
  is_manual : st'.is_manual = st.is_manual
  input_version : st'.input_version = st.input_version
  smallest_snapshot : st'.smallest_snapshot = st.smallest_snapshot
  input : st'.input = st.input
  current_user_key : st'.current_user_key = st.current_user_key
  last_sequence_for_key : st'.last_sequence_for_key = st.last_sequence_for_key
  level_ptrs : st'.level_ptrs = st.level_ptrs

section Building

omit [LinearOrder K]

variable {o : DBOptions K V} {s s₁ s₂ : DBState K V} {st st₁ st₂ : CompactionState K V}

theorem CompactionState.written_congr {tables tables' : ℕ → List (Entry K V)}
    (h : ∀ n ∈ st.numbers, tables' n = tables n) : st.written tables' = st.written tables := by
  have : (st.outputs.flatMap fun f => tables' f.number) =
      st.outputs.flatMap fun f => tables f.number :=
    flatMap_congr fun f hf => h _ (Or.inl ⟨f, hf, rfl⟩)
  rw [written, written, this]

theorem Grown.refl (h : Building o s st) : Grown o s st s st [] :=
  ⟨h, (append_nil _).symm, le_rfl, fun _ _ _ => rfl, fun _ hn => Or.inl hn, rfl⟩

variable {added : List (Entry K V)}

theorem Grown.congr {st' st₁' : CompactionState K V}
    (h : Grown o s st s₁ st₁ added) (ho : st'.outputs = st.outputs)
    (hb : st'.builder = st.builder) (ho₁ : st₁'.outputs = st₁.outputs)
    (hb₁ : st₁'.builder = st₁.builder) : Grown o s st' s₁ st₁' added := by
  cases st'
  cases st₁'
  simp only at ho hb ho₁ hb₁
  subst ho hb ho₁ hb₁
  exact ⟨⟨h.building.output, h.building.nonempty, h.building.distinct, h.building.number⟩,
    h.written, h.next, h.tables, h.numbers, h.state⟩

theorem Grown.trans {added' : List (Entry K V)} (h : Grown o s st s₁ st₁ added)
    (h' : Grown o s₁ st₁ s₂ st₂ added') : Grown o s st s₂ st₂ (added ++ added') := by
  refine ⟨h'.building, ?_, h.next.trans h'.next, fun n hn hout => ?_, fun n hn => ?_, ?_⟩
  · rw [h'.written, h.written, append_assoc]
  · have hout' : n ∉ st₁.numbers := fun hin => by
      rcases h.numbers n hin with hin | hle
      · exact hout hin
      · omega
    rw [h'.tables n (hn.trans_le h.next) hout', h.tables n hn hout]
  · rcases h'.numbers n hn with hn | hle
    · exact h.numbers n hn
    · exact Or.inr (h.next.trans hle)
  · rw [h'.state, h.state]

theorem SameLoop.refl (st : CompactionState K V) : SameLoop st st :=
  ⟨rfl, rfl, rfl, rfl, rfl, rfl, rfl, rfl⟩

theorem SameLoop.outputs (st : CompactionState K V) (outputs : List (FileMetaData K))
    (builder : Option (ℕ × List (Entry K V))) :
    SameLoop st { st with outputs := outputs, builder := builder } :=
  ⟨rfl, rfl, rfl, rfl, rfl, rfl, rfl, rfl⟩

theorem SameLoop.trans (h : SameLoop st st₁) (h' : SameLoop st₁ st₂) : SameLoop st st₂ :=
  ⟨h'.1.trans h.1, h'.2.trans h.2, h'.3.trans h.3, h'.4.trans h.4, h'.5.trans h.5, h'.6.trans h.6,
    h'.7.trans h.7, h'.8.trans h.8⟩

theorem Building.finishOutput (h : Building o s st) :
    Grown o s st (s.finishOutput o st).1 (s.finishOutput o st).2 [] ∧
      SameLoop st (s.finishOutput o st).2 ∧ (s.finishOutput o st).2.builder = none := by
  unfold DBState.finishOutput
  cases hb : st.builder with
  | none => exact ⟨Grown.refl h, SameLoop.refl st, hb⟩
  | some p =>
    obtain ⟨number, entries⟩ := p
    obtain ⟨f, hf⟩ := fileMetaData_isSome o number (h.nonempty number entries hb)
    have hnumber : f.number = number := fileMetaData_number hf
    have hout := h.distinct number entries hb
    have hmem : number ∈ st.numbers := Or.inr ⟨entries, hb⟩
    have hold : ∀ n, n ≠ number → update s.tables number entries n = s.tables n :=
      fun n hn => update_of_ne hn _ _
    have hnumbers : ∀ n ∈ CompactionState.numbers
        { st with outputs := st.outputs ++ [f], builder := none }, n ∈ st.numbers := by
      rintro n (⟨g, hg, rfl⟩ | ⟨es, hnone⟩)
      · rcases mem_append.1 hg with hg | hg
        · exact Or.inl ⟨g, hg, rfl⟩
        · rw [mem_singleton.1 hg, hnumber]
          exact hmem
      · cases hnone
    simp only [hf, Option.toList_some]
    refine ⟨⟨⟨fun g hg => ?_, fun _ _ hnone => (by cases hnone), fun _ _ hnone => (by cases hnone),
      fun n hn => h.number n (hnumbers n hn)⟩, ?_, le_rfl, fun n _ hn => ?_,
      fun n hn => Or.inl (hnumbers n hn), rfl⟩, SameLoop.outputs st _ _, trivial⟩
    · rcases mem_append.1 hg with hg | hg
      · simp only [hold _ (hout g hg)]
        exact h.output g hg
      · rw [mem_singleton.1 hg]
        simp only [hnumber, update_self]
        exact hf
    · have houtputs : (st.outputs.flatMap fun f => update s.tables number entries f.number) =
          st.outputs.flatMap fun f => s.tables f.number :=
        flatMap_congr fun g hg => hold _ (hout g hg)
      simp only [CompactionState.written, flatMap_append, flatMap_singleton, houtputs, hb,
        hnumber, update_self]
      simp
    · exact hold n fun heq => hn (heq ▸ hmem)

theorem Building.addToOutput (h : Building o s st) (e : Entry K V) :
    Grown o s st (s.addToOutput o st e).1 (s.addToOutput o st e).2 [e] ∧
      SameLoop st (s.addToOutput o st e).2 := by
  -- the state before the size of the file is checked
  have hopen : ∃ r : DBState K V × ℕ × List (Entry K V), s.addToOutput o st e =
      (if maxFileSizeForLevel o.max_file_size st.compaction.level ≤ o.building_size r.2.2 then
        r.1.finishOutput o { st with builder := some r.2 }
      else (r.1, { st with builder := some r.2 })) ∧
      Grown o s st r.1 { st with builder := some r.2 } [e] := by
    unfold DBState.addToOutput
    cases hb : st.builder with
    | none =>
      have hlt : ∀ f ∈ st.outputs, f.number < s.next_file_number :=
        fun f hf => h.number _ (Or.inl ⟨f, hf, rfl⟩)
      refine ⟨_, rfl, ⟨h.output, fun _ _ hsome => ?_, fun _ _ hsome f hf => ?_, fun n hn => ?_⟩, ?_,
        Nat.le_succ _, fun _ _ _ => rfl, fun n hn => ?_, rfl⟩
      · obtain ⟨rfl, rfl⟩ := Prod.mk.inj (Option.some.inj hsome)
        exact cons_ne_nil _ _
      · obtain ⟨rfl, rfl⟩ := Prod.mk.inj (Option.some.inj hsome)
        exact (hlt f hf).ne
      · rcases hn with ⟨f, hf, rfl⟩ | ⟨es, hsome⟩
        · exact Nat.lt_succ_of_lt (hlt f hf)
        · obtain ⟨rfl, rfl⟩ := Prod.mk.inj (Option.some.inj hsome)
          exact Nat.lt_succ_self _
      · simp [CompactionState.written, hb]
      · rcases hn with ⟨f, hf, rfl⟩ | ⟨es, hsome⟩
        · exact Or.inl (Or.inl ⟨f, hf, rfl⟩)
        · obtain ⟨rfl, rfl⟩ := Prod.mk.inj (Option.some.inj hsome)
          exact Or.inr le_rfl
    | some p =>
      obtain ⟨number, entries⟩ := p
      have hmem : ∀ n ∈ CompactionState.numbers
          { st with builder := some (number, entries ++ [e]) }, n ∈ st.numbers := by
        rintro n (hn | ⟨es, hsome⟩)
        · exact Or.inl hn
        · obtain ⟨rfl, rfl⟩ := Prod.mk.inj (Option.some.inj hsome)
          exact Or.inr ⟨entries, hb⟩
      refine ⟨_, rfl, ⟨h.output, fun _ _ hsome => ?_, fun _ _ hsome => ?_,
        fun n hn => h.number n (hmem n hn)⟩, ?_, le_rfl, fun _ _ _ => rfl,
        fun n hn => Or.inl (hmem n hn), rfl⟩
      · obtain ⟨rfl, rfl⟩ := Prod.mk.inj (Option.some.inj hsome)
        exact append_ne_nil_of_right_ne_nil _ (cons_ne_nil _ _)
      · obtain ⟨rfl, rfl⟩ := Prod.mk.inj (Option.some.inj hsome)
        exact h.distinct number entries hb
      · simp [CompactionState.written, hb]
  obtain ⟨r, hadd, hgrown⟩ := hopen
  rw [hadd]
  split_ifs with hsize
  · obtain ⟨hclosed, hloop, -⟩ := hgrown.building.finishOutput
    exact ⟨hgrown.trans hclosed, (SameLoop.outputs st _ _).trans hloop⟩
  · exact ⟨hgrown, SameLoop.outputs st _ _⟩

end Building

/-! ### One round of the loop -/

/-- What one round of the loop of `DoCompactionWork` does. -/
structure Round (o : DBOptions K V) (s : DBState K V) (st : CompactionState K V) (e : Entry K V)
    (rest : List (Entry K V)) (s' : DBState K V) (st' : CompactionState K V) : Prop where
  compact : s'.compact = some st'
  input : st'.input = rest
  building : Building o s' st'
  written : st'.written s'.tables = st.written s.tables ++ if (st.dropEntry e.1).2 then [] else [e]
  next : s.next_file_number ≤ s'.next_file_number
  tables : ∀ n < s.next_file_number, n ∉ st.numbers → s'.tables n = s.tables n
  numbers : ∀ n ∈ st'.numbers, n ∈ st.numbers ∨ s.next_file_number ≤ n
  /-- Memtables and the version stay. -/
  state : s' = { s with
    tables := s'.tables, next_file_number := s'.next_file_number, compact := s'.compact }
  compaction : st'.compaction = st.compaction
  is_manual : st'.is_manual = st.is_manual
  input_version : st'.input_version = st.input_version
  smallest_snapshot : st'.smallest_snapshot = st.smallest_snapshot
  current_user_key : st'.current_user_key = (st.dropEntry e.1).1.current_user_key
  last_sequence_for_key : st'.last_sequence_for_key = (st.dropEntry e.1).1.last_sequence_for_key
  level_ptrs : st'.level_ptrs = (st.dropEntry e.1).1.level_ptrs

theorem dropEntry_frame (st : CompactionState K V) (key : InternalKey K) :
    (st.dropEntry key).1 = { st with
      current_user_key := (st.dropEntry key).1.current_user_key
      last_sequence_for_key := (st.dropEntry key).1.last_sequence_for_key
      level_ptrs := (st.dropEntry key).1.level_ptrs } := by
  unfold CompactionState.dropEntry
  generalize (if st.current_user_key = some key.user_key then st.last_sequence_for_key
    else kMaxSequenceNumber) = last
  simp only
  split_ifs
  · rfl
  · rfl
  · rfl

variable {st : CompactionState K V}

theorem SameLoop.dropEntry {st' : CompactionState K V} (h : SameLoop st st')
    (key : InternalKey K) : (st'.dropEntry key).2 = (st.dropEntry key).2 ∧
      SameLoop (st.dropEntry key).1 (st'.dropEntry key).1 := by
  obtain ⟨h1, h2, h3, h4, h5, h6, h7, h8⟩ := h
  cases st'
  simp only at h1 h2 h3 h4 h5 h6 h7 h8
  subst h1 h2 h3 h4 h5 h6 h7 h8
  unfold CompactionState.dropEntry
  generalize (if st.current_user_key = some key.user_key then st.last_sequence_for_key
    else kMaxSequenceNumber) = last
  simp only
  split_ifs
  · exact ⟨rfl, rfl, rfl, rfl, rfl, rfl, rfl, rfl, rfl⟩
  · exact ⟨rfl, rfl, rfl, rfl, rfl, rfl, rfl, rfl, rfl⟩
  · exact ⟨rfl, rfl, rfl, rfl, rfl, rfl, rfl, rfl, rfl⟩

/-- **Every round of the loop** handles one entry. -/
theorem compactEntry_round {o : DBOptions K V} {rest : List (Entry K V)} (h : Building o s st)
    (hst : s.compact = some st)
    (hinput : st.input = e :: rest) :
    ∃ s' st', s.compactEntry o = some s' ∧ Round o s st e rest s' st' := by
  obtain ⟨st₁, stop, hstop, hloop₁, hout₁, hbuild₁⟩ : ∃ st₁ stop,
      st.shouldStopBefore o.max_file_size e.1 = (st₁, stop) ∧ SameLoop st st₁ ∧
      st₁.outputs = st.outputs ∧ st₁.builder = st.builder :=
    ⟨_, _, rfl, ⟨rfl, rfl, rfl, rfl, rfl, rfl, rfl, rfl⟩, rfl, rfl⟩
  have h₁ := (Grown.refl h).congr rfl rfl hout₁ hbuild₁
  -- the output file may be closed first
  obtain ⟨s₂, st₂, hclose, h₂, hloop₂⟩ : ∃ s₂ st₂,
      (if stop then s.finishOutput o st₁ else (s, st₁)) = (s₂, st₂) ∧
      Grown o s st s₂ st₂ [] ∧ SameLoop st st₂ := by
    by_cases hs : stop = true
    · obtain ⟨hg, hl, -⟩ := h₁.building.finishOutput
      rw [if_pos hs]
      exact ⟨_, _, rfl, h₁.trans hg, hloop₁.trans hl⟩
    · rw [if_neg hs]
      exact ⟨s, st₁, rfl, h₁, hloop₁⟩
  obtain ⟨hdrop, hloop₃⟩ := hloop₂.dropEntry e.1
  have hframe₃ := dropEntry_frame st₂ e.1
  have h₃ : Grown o s st s₂ (st₂.dropEntry e.1).1 [] := by
    rw [hframe₃]
    exact h₂.congr rfl rfl rfl rfl
  -- the entry is dropped or written
  obtain ⟨s₄, st₄, hadd, h₄, hloop₄⟩ : ∃ s₄ st₄,
      (if (st₂.dropEntry e.1).2 then (s₂, (st₂.dropEntry e.1).1)
        else s₂.addToOutput o (st₂.dropEntry e.1).1 e) = (s₄, st₄) ∧
      Grown o s st s₄ st₄ (if (st.dropEntry e.1).2 then [] else [e]) ∧
      SameLoop (st.dropEntry e.1).1 st₄ := by
    rw [hdrop]
    by_cases hd : (st.dropEntry e.1).2 = true
    · rw [if_pos hd, if_pos hd]
      exact ⟨_, _, rfl, h₃, hloop₃⟩
    · obtain ⟨hg, hl⟩ := h₃.building.addToOutput e
      rw [if_neg hd, if_neg hd]
      exact ⟨_, _, rfl, h₃.trans hg, hloop₃.trans hl⟩
  have hframe := dropEntry_frame st e.1
  refine ⟨{ s₄ with compact := some { st₄ with input := rest } },
    { st₄ with input := rest }, ?_, ?_⟩
  · unfold DBState.compactEntry
    simp only [hst, hinput, hstop, hclose, hadd]
  · exact
      { compact := rfl
        input := rfl
        building := ⟨h₄.building.output, h₄.building.nonempty, h₄.building.distinct,
          h₄.building.number⟩
        written := h₄.written
        next := h₄.next
        tables := h₄.tables
        numbers := h₄.numbers
        state := by rw [h₄.state]
        compaction := hloop₄.compaction.trans (by rw [hframe])
        is_manual := hloop₄.is_manual.trans (by rw [hframe])
        input_version := hloop₄.input_version.trans (by rw [hframe])
        smallest_snapshot := hloop₄.smallest_snapshot.trans (by rw [hframe])
        current_user_key := hloop₄.current_user_key
        last_sequence_for_key := hloop₄.last_sequence_for_key
        level_ptrs := hloop₄.level_ptrs }

theorem numbers_start (s : DBState K V) (c : Compaction K) (is_manual : Bool)
    (smallest_snapshot n : ℕ)
    (hst : (s.startCompaction c is_manual smallest_snapshot).compact = some st) :
    n ∉ st.numbers := by
  obtain rfl := Option.some.inj hst
  rintro (⟨f, hf, -⟩ | ⟨entries, hb⟩)
  · cases hf
  · cases hb

theorem building_start (o : DBOptions K V) (s : DBState K V) (c : Compaction K) (is_manual : Bool)
    (smallest_snapshot : ℕ)
    (hst : (s.startCompaction c is_manual smallest_snapshot).compact = some st) :
    Building o (s.startCompaction c is_manual smallest_snapshot) st := by
  refine ⟨?_, ?_, ?_, fun n hn => absurd hn (numbers_start s c is_manual smallest_snapshot n hst)⟩
  · obtain rfl := Option.some.inj hst
    exact fun f hf => absurd hf not_mem_nil
  · obtain rfl := Option.some.inj hst
    exact fun _ _ hb => (by cases hb)
  · obtain rfl := Option.some.inj hst
    exact fun _ _ hb => (by cases hb)

/-! ### The invariant -/

/-- The invariant of a running compaction. -/
structure Working (o : DBOptions K V) (s : DBState K V) (st : CompactionState K V) : Prop where
  building : Building o s st
  sub0 : ∀ f ∈ st.compaction.inputs0, f ∈ s.current st.compaction.level
  sub1 : ∀ f ∈ st.compaction.inputs1, f ∈ s.current (st.compaction.level + 1)
  behind : ∀ g ∈ s.current st.compaction.level, g ∉ st.compaction.inputs0 →
    ∀ f ∈ st.compaction.inputs0, ∀ e ∈ s.tables g.number, ∀ e' ∈ s.tables f.number, Newer e e'
  apart : ∀ g ∈ s.current (st.compaction.level + 1), g ∉ st.compaction.inputs1 →
    (∀ f ∈ st.compaction.inputs0 ++ st.compaction.inputs1, g.largest < f.smallest) ∨
      ∀ f ∈ st.compaction.inputs0 ++ st.compaction.inputs1, f.largest < g.smallest
  gapless : st.is_manual = false →
    Gapless (fileSet st.compaction.inputs0 ∪ fileSet st.compaction.inputs1)
  /-- Output files are not in the version. -/
  fresh : ∀ level, ∀ g ∈ s.current level, g.number ∉ st.numbers
  sorted : (st.written s.tables ++ st.input).Pairwise fun a b => a.1 < b.1
  /-- Every entry comes from an input file. -/
  source : ∀ e ∈ st.written s.tables ++ st.input,
    ∃ f ∈ st.compaction.inputs0 ++ st.compaction.inputs1, e ∈ s.tables f.number

namespace Working

variable {o : DBOptions K V} {s s' : DBState K V} {st st' : CompactionState K V}

theorem congr (h : Working o s st) (hcurrent : s'.current = s.current)
    (hc : st'.compaction = st.compaction) (hm : st'.is_manual = st.is_manual)
    (hbuilding : Building o s' st')
    (htables : ∀ level, ∀ g ∈ s.current level, s'.tables g.number = s.tables g.number)
    (hfresh : ∀ level, ∀ g ∈ s.current level, g.number ∉ st'.numbers)
    (hsub : (st'.written s'.tables ++ st'.input).Sublist (st.written s.tables ++ st.input)) :
    Working o s' st' := by
  refine ⟨hbuilding, ?_, ?_, ?_, ?_, ?_, ?_, h.sorted.sublist hsub, fun e he => ?_⟩
  · rw [hc, hcurrent]
    exact h.sub0
  · rw [hc, hcurrent]
    exact h.sub1
  · rw [hc, hcurrent]
    intro g hg hout f hf
    rw [htables _ g hg, htables _ f (h.sub0 f hf)]
    exact h.behind g hg hout f hf
  · rw [hc, hcurrent]
    exact h.apart
  · rw [hc, hm]
    exact h.gapless
  · rw [hcurrent]
    exact hfresh
  · obtain ⟨f, hf, he⟩ := h.source e (hsub.subset he)
    rw [hc]
    refine ⟨f, hf, ?_⟩
    rcases mem_append.1 hf with hf | hf
    · rwa [htables _ f (h.sub0 f hf)]
    · rwa [htables _ f (h.sub1 f hf)]

theorem congr_state (h : Working o s st) (hcurrent : s'.current = s.current)
    (htables : s'.tables = s.tables) (hnext : s.next_file_number ≤ s'.next_file_number) :
    Working o s' st := by
  refine h.congr hcurrent rfl rfl ?_ (fun _ _ _ => by rw [htables]) h.fresh (by rw [htables])
  refine ⟨?_, h.building.nonempty, h.building.distinct,
    fun n hn => (h.building.number n hn).trans_le hnext⟩
  rw [htables]
  exact h.building.output

theorem tables_of_grown (h : Working o s st) (ha : Arranged s)
    (htables : ∀ n < s.next_file_number, n ∉ st.numbers → s'.tables n = s.tables n) :
    ∀ level, ∀ g ∈ s.current level, s'.tables g.number = s.tables g.number :=
  fun level g hg => htables _ (ha.number level g hg) (h.fresh level g hg)

theorem fresh_of_grown (h : Working o s st) (ha : Arranged s)
    (hnumbers : ∀ n ∈ st'.numbers, n ∈ st.numbers ∨ s.next_file_number ≤ n) :
    ∀ level, ∀ g ∈ s.current level, g.number ∉ st'.numbers := by
  intro level g hg hin
  rcases hnumbers _ hin with hin | hle
  · exact h.fresh level g hg hin
  · exact absurd (ha.number level g hg) (not_lt.2 hle)

/-- **One round of the loop keeps the invariant.** -/
theorem compactEntry (h : Working o s st) (ha : Arranged s) (hst : s.compact = some st)
    (hs : s.compactEntry o = some s') :
    Arranged s' ∧ ∃ st', s'.compact = some st' ∧ Working o s' st' := by
  obtain ⟨st₀, e, rest, hst₀, hinput⟩ := DBState.compactEntry_some hs
  obtain rfl := Option.some.inj (hst.symm.trans hst₀)
  obtain ⟨s₁, st₁, hs₁, hround⟩ := compactEntry_round h.building hst hinput
  obtain rfl := Option.some.inj (hs₁.symm.trans hs)
  have htables := h.tables_of_grown ha hround.tables
  have hstate := hround.state
  refine ⟨ha.congr (by rw [hstate]) (by rw [hstate]) (by rw [hstate]) (by rw [hstate]) htables
    hround.next, st₁, hround.compact, ?_⟩
  refine h.congr (by rw [hstate]) hround.compaction hround.is_manual hround.building htables
    (h.fresh_of_grown ha hround.numbers) ?_
  rw [hround.written, hround.input, hinput, append_assoc]
  refine List.Sublist.append_left ?_ _
  split_ifs
  · exact sublist_cons_self e rest
  · exact List.Sublist.refl _

theorem finishOutput (h : Working o s st) (ha : Arranged s) :
    Working o (s.finishOutput o st).1 (s.finishOutput o st).2 ∧
      Arranged (s.finishOutput o st).1 := by
  obtain ⟨hg, hl, -⟩ := h.building.finishOutput
  have htables := h.tables_of_grown ha hg.tables
  have hstate := hg.state
  refine ⟨?_, ha.congr (by rw [hstate]) (by rw [hstate]) (by rw [hstate]) (by rw [hstate]) htables
    hg.next⟩
  refine h.congr (by rw [hstate]) hl.compaction hl.is_manual hg.building htables
    (h.fresh_of_grown ha hg.numbers) ?_
  rw [hg.written, hl.input, append_nil]

/-- **A compaction starts with the invariant.** -/
theorem start (o : DBOptions K V) (ha : Arranged s) {c : Compaction K} (hc : Chosen s.current c)
    {is_manual : Bool}
    (hgap : is_manual = false → Gapless (fileSet c.inputs0 ∪ fileSet c.inputs1))
    (smallest_snapshot : ℕ) :
    ∃ st, (s.startCompaction c is_manual smallest_snapshot).compact = some st ∧
      Working o (s.startCompaction c is_manual smallest_snapshot) st := by
  obtain ⟨hsorted, hmem⟩ := makeInputIterator_spec ha hc
  refine ⟨_, rfl, ?_⟩
  refine
    { building := building_start o s c is_manual smallest_snapshot rfl
      sub0 := hc.sub
      sub1 := hc.sub_next
      behind := fun g hg hout f hf e he e' he' =>
        ha.behind hc.sub hc.settled hg hout hf he he'
      apart := fun g hg hout => hc.apart_next ha.wellFormed hg hout
      gapless := hgap
      fresh := fun level g hg hin => numbers_start s c is_manual smallest_snapshot _ rfl hin
      sorted := hsorted
      source := fun e he => (hmem e).1 he }

/-- **In the end the outputs fit into the version.** -/
theorem installable (h : Working o s st) (hinput : st.input = []) (hbuilder : st.builder = none) :
    Installable s st.compaction st.outputs := by
  have hwritten : st.written s.tables ++ st.input =
      st.outputs.flatMap fun f => s.tables f.number := by
    rw [CompactionState.written, hinput, hbuilder]
    simp
  have hsorted := h.sorted
  rw [hwritten] at hsorted
  have htable : ∀ f ∈ st.outputs, IsTableOf f (s.tables f.number) := fun f hf =>
    (fileMetaData_spec (h.building.output f hf) ((pairwise_flatMap.1 hsorted).1 f hf)).2
  refine ⟨h.sub0, h.sub1, h.behind, h.apart, htable, (ordered_iff_pairwise htable).2 hsorted,
    fun f hf e he => ?_, fun f hf => h.building.number _ (Or.inl ⟨f, hf, rfl⟩),
    fun f hf g hg heq => h.fresh _ g (h.sub1 g hg) (heq ▸ Or.inl ⟨f, hf, rfl⟩)⟩
  refine h.source e ?_
  rw [hwritten]
  exact mem_flatMap.2 ⟨f, hf, he⟩

end Working

end Bourbon
