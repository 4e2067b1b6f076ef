import Bourbon.Db.LevelOrder

/-!
# User keys and the inputs of a compaction

`DoCompactionWork` drops deletion markers because it takes every older entry of the user key in its
two levels for one of its inputs.  `SetupOtherInputs` adds the neighbours that share a user key in
the lower one of the two levels, but not in the next level, where a user key can be split between
two files as well.

* `inputs1_eq` : growing the inputs does not change the inputs in the next level;
* `userKeysClosed_iff` : the inputs are closed under user keys if and only if the first range of
  `SetupOtherInputs` does not separate two files of the next level that share a user key;
* `userKey_split_in_next_level` : an input file whose neighbour with the same user key stays.
-/

namespace Bourbon

open List

variable {K V : Type*} [LinearOrder K]

/-! ### Initial inputs -/

/-- The files with which `PickCompaction` or `CompactRange` call `SetupOtherInputs`. -/
inductive InitialInputs (max_file_size : ℕ) (v : Version K) (level : ℕ) :
    List (FileMetaData K) → Prop
  | pick {compact_pointer : ℕ → Option (InternalKey K)}
      {file_to_compact : Option (ℕ × FileMetaData K)} {f : FileMetaData K}
      (hseek : ∀ p, file_to_compact = some p → p.2 ∈ v p.1)
      (hpick : pickFile v compact_pointer file_to_compact = some (level, f)) :
      InitialInputs max_file_size v level
        (if level = 0 then getOverlappingInputs v 0 (some f.smallest) (some f.largest) else [f])
  | range {start limit : Option (InternalKey K)}
      (hne : getOverlappingInputs v level start limit ≠ []) :
      InitialInputs max_file_size v level
        (if 0 < level then truncateInputs (maxFileSizeForLevel max_file_size level) 0
            (getOverlappingInputs v level start limit)
          else getOverlappingInputs v level start limit)

variable {v : Version K} {level max_file_size : ℕ} {inputs : List (FileMetaData K)}

theorem InitialInputs.of_pickCompaction {compact_pointer : ℕ → Option (InternalKey K)}
    {file_to_compact : Option (ℕ × FileMetaData K)} {c : Compaction K}
    (hseek : ∀ p, file_to_compact = some p → p.2 ∈ v p.1)
    (h : pickCompaction max_file_size v compact_pointer file_to_compact = some c) :
    ∃ level inputs, InitialInputs max_file_size v level inputs ∧
      setupOtherInputs max_file_size v level inputs = some c := by
  unfold pickCompaction at h
  cases hpick : pickFile v compact_pointer file_to_compact with
  | none => simp only [hpick, reduceCtorEq] at h
  | some p =>
    obtain ⟨level, f⟩ := p
    simp only [hpick] at h
    exact ⟨level, _, .pick hseek hpick, h⟩

theorem InitialInputs.of_compactRange {start limit : Option (InternalKey K)} {c : Compaction K}
    (h : compactRange max_file_size v level start limit = some c) :
    ∃ inputs, InitialInputs max_file_size v level inputs ∧
      setupOtherInputs max_file_size v level inputs = some c := by
  unfold compactRange at h
  by_cases hnil : getOverlappingInputs v level start limit = []
  · rw [if_pos hnil] at h
    cases h
  · rw [if_neg hnil] at h
    exact ⟨_, .range hnil, h⟩

theorem InitialInputs.seed (hv : WellFormed v) (h : InitialInputs max_file_size v level inputs) :
    Seed v level inputs := by
  cases h with
  | @pick _ _ f hseek hpick =>
    have hf := pickFile_mem hseek hpick
    by_cases h0 : level = 0
    · subst h0
      rw [if_pos rfl]
      exact getOverlappingInputs_seed hv
        (ne_nil_of_mem (mem_getOverlappingInputs hv hf le_rfl le_rfl))
    · rw [if_neg h0]
      exact seed_singleton hv h0 hf
  | range hne =>
    by_cases h0 : 0 < level
    · rw [if_pos h0]
      exact (getOverlappingInputs_seed hv hne).truncate (Nat.pos_iff_ne_zero.1 h0) _
    · rw [if_neg h0]
      exact getOverlappingInputs_seed hv hne

/-- **Growing the inputs does not change the inputs in the next level**: they are the files that
overlap the first range. -/
theorem inputs1_eq (hv : WellFormed v) (hseed : Seed v level inputs) {c : Compaction K}
    (h : setupOtherInputs max_file_size v level inputs = some c) :
    ∃ smallest largest,
      getRange (addBoundaryInputs (v level) inputs) = some (smallest, largest) ∧
      c.inputs1 = (v (level + 1)).filter
        (overlaps (some smallest.user_key) (some largest.user_key)) := by
  obtain ⟨-, hsub0, -⟩ := hseed.addBoundaryInputs hv
  simp only [setupOtherInputs, Option.bind_eq_bind, Option.bind_eq_some_iff,
    Option.some.injEq] at h
  generalize addBoundaryInputs (v level) inputs = inputs0 at *
  obtain ⟨⟨smallest, largest⟩, hr0, ⟨all_start, all_limit⟩, hall, r, hr, r', -, rfl⟩ := h
  refine ⟨smallest, largest, hr0, ?_⟩
  simp only [getOverlappingInputs_succ] at hall hr ⊢
  rcases expandInputs_cases max_file_size v level inputs0
    ((v (level + 1)).filter (overlaps (some smallest.user_key) (some largest.user_key)))
    all_start all_limit with heq | ⟨new_start, new_limit, hgne, hgr, hlen, heq⟩
  · rw [heq]
  · -- the grown range overlaps at least the same files, and it overlaps as many
    rw [heq]
    rw [getOverlappingInputs_succ] at hlen ⊢
    obtain ⟨-, -, -, -, -, hin⟩ := (getOverlappingInputs_seed hv hgne).addBoundaryInputs hv
    have hsub : ∀ f ∈ inputs0, f ∈ addBoundaryInputs (v level)
        (getOverlappingInputs v level (some all_start) (some all_limit)) := fun f hf =>
      hin f (mem_getOverlappingInputs hv (hsub0 f hf)
        ((getRange_spec hall).smallest_le f (mem_append_left _ hf))
        ((getRange_spec hall).le_largest f (mem_append_left _ hf)))
    have hmono := (getRange_spec hr0).filter_subset (getRange_spec hgr) hsub (v (level + 1))
    have hsublist : ((v (level + 1)).filter
        (overlaps (some smallest.user_key) (some largest.user_key))).Sublist
          ((v (level + 1)).filter
            (overlaps (some new_start.user_key) (some new_limit.user_key))) := by
      have hfilter : (v (level + 1)).filter
          (overlaps (some smallest.user_key) (some largest.user_key)) =
          ((v (level + 1)).filter
            (overlaps (some new_start.user_key) (some new_limit.user_key))).filter
              (overlaps (some smallest.user_key) (some largest.user_key)) := by
        rw [filter_filter]
        refine filter_congr fun g hg => ?_
        by_cases hov : overlaps (some smallest.user_key) (some largest.user_key) g = true
        · rw [hov, (mem_filter.1 (hmono g (mem_filter.2 ⟨hg, hov⟩))).2]
          rfl
        · rw [Bool.not_eq_true] at hov
          rw [hov, Bool.false_and]
      rw [hfilter]
      exact filter_sublist
    exact (hsublist.eq_of_length hlen.symm).symm

theorem setupOtherInputs_isSome (max_file_size : ℕ) (v : Version K) (level : ℕ)
    (h : inputs ≠ []) : ∃ c, setupOtherInputs max_file_size v level inputs = some c := by
  have hne0 : addBoundaryInputs (v level) inputs ≠ [] := by
    rw [addBoundaryInputs]
    split
    · exact h
    · exact append_ne_nil_of_left_ne_nil h _
  simp only [setupOtherInputs, Option.bind_eq_bind]
  generalize addBoundaryInputs (v level) inputs = inputs0 at hne0 ⊢
  obtain ⟨smallest, largest, hr0⟩ := getRange_isSome hne0
  simp only [hr0, Option.bind_some]
  generalize getOverlappingInputs v (level + 1) (some smallest) (some largest) = inputs1
  obtain ⟨all_start, all_limit, hall⟩ := getRange_isSome
    (append_ne_nil_of_left_ne_nil hne0 inputs1)
  simp only [hall, Option.bind_some]
  -- the grown inputs have a range as well
  have hgrown : (expandInputs max_file_size v level inputs0 inputs1 all_start
      all_limit).1 ≠ [] := by
    rcases expandInputs_cases max_file_size v level inputs0 inputs1 all_start all_limit with
      heq | ⟨new_start, new_limit, -, hgr, -, heq⟩
    · rw [heq]
      exact hne0
    · rw [heq]
      intro hnil
      simp only at hnil
      rw [hnil] at hgr
      cases hgr
  generalize expandInputs max_file_size v level inputs0 inputs1 all_start all_limit = r at hgrown ⊢
  obtain ⟨_, _, hr1⟩ := getRange_isSome hgrown
  obtain ⟨_, _, hr2⟩ := getRange_isSome (append_ne_nil_of_left_ne_nil hgrown r.2)
  simp only [hr1, hr2, Option.bind_some]
  exact ⟨_, rfl⟩

/-! ### User keys -/

/-- The user key occurs in one of the files. -/
def Occurs (tables : ℕ → List (Entry K V)) (files : List (FileMetaData K)) (u : K) : Prop :=
  ∃ f ∈ files, ∃ e ∈ tables f.number, e.1.user_key = u

/-- For the user keys in the inputs, no other file of the level holds an older entry than the
inputs, and no other file of the next level holds an entry. -/
def UserKeysClosed (v : Version K) (tables : ℕ → List (Entry K V)) (c : Compaction K) : Prop :=
  ∀ u, Occurs tables (c.inputs0 ++ c.inputs1) u →
    (∀ g ∈ v c.level, g ∉ c.inputs0 → ∀ e ∈ tables g.number, e.1.user_key = u →
      ∀ f ∈ c.inputs0, ∀ e' ∈ tables f.number, e'.1.user_key = u →
        ¬ e.1.sequence < e'.1.sequence) ∧
    ∀ g ∈ v (c.level + 1), g ∉ c.inputs1 → ∀ e ∈ tables g.number, e.1.user_key ≠ u

/-- The range of the initial inputs, with their boundary files, does not separate two files of the
next level that share a user key. -/
def SeparatesNoUserKey (v : Version K) (level : ℕ) (inputs : List (FileMetaData K)) : Prop :=
  ∀ smallest largest, getRange (addBoundaryInputs (v level) inputs) = some (smallest, largest) →
    ∀ f ∈ v (level + 1), ∀ g ∈ v (level + 1), f.largest.user_key = g.smallest.user_key →
      overlaps (some smallest.user_key) (some largest.user_key) f =
        overlaps (some smallest.user_key) (some largest.user_key) g

/-- Files of the level that are not inputs hold no older entries: the inputs are settled. -/
theorem Settled.not_older {tables : ℕ → List (Entry K V)} {files inputs : List (FileMetaData K)}
    (htable : ∀ f ∈ files, IsTableOf f (tables f.number)) (hsub : ∀ f ∈ inputs, f ∈ files)
    (h : Settled files inputs) {g f : FileMetaData K} (hg : g ∈ files) (hout : g ∉ inputs)
    (hf : f ∈ inputs) {e e' : Entry K V} (he : e ∈ tables g.number) (he' : e' ∈ tables f.number)
    (huser : e.1.user_key = e'.1.user_key) : ¬ e.1.sequence < e'.1.sequence := by
  have hge := (htable g hg).range e he
  have hfe := (htable f (hsub f hf)).range e' he'
  rcases h g hg hout with hbefore | hafter
  · have hlt : e.1 < e'.1 := hge.2.trans_lt ((hbefore f hf).trans_le hfe.1)
    exact not_lt.2 (InternalKey.sequence_le_of_le hlt.le huser)
  · have hlt := (InternalKey.user_key_le hfe.2).trans_lt ((hafter f hf).trans_le
      (InternalKey.user_key_le hge.1))
    exact absurd huser hlt.ne'

theorem Ordered.meet {tables : ℕ → List (Entry K V)} {files : List (FileMetaData K)}
    (hord : Ordered files) (htable : ∀ f ∈ files, IsTableOf f (tables f.number))
    {f g : FileMetaData K} (hf : f ∈ files) (hg : g ∈ files) (hne : f ≠ g) {e e' : Entry K V}
    (he : e ∈ tables f.number) (he' : e' ∈ tables g.number)
    (huser : e.1.user_key = e'.1.user_key) :
    f.largest.user_key = g.smallest.user_key ∨ g.largest.user_key = f.smallest.user_key := by
  have hfe := (htable f hf).range e he
  have hge := (htable g hg).range e' he'
  rcases hord.apart hf hg hne with hlt | hlt
  · refine Or.inl (le_antisymm (InternalKey.user_key_le hlt.le) ?_)
    exact (InternalKey.user_key_le hge.1).trans (huser.symm.le.trans
      (InternalKey.user_key_le hfe.2))
  · refine Or.inr (le_antisymm (InternalKey.user_key_le hlt.le) ?_)
    exact (InternalKey.user_key_le hfe.1).trans (huser.le.trans (InternalKey.user_key_le hge.2))

/-- A file of the next level that holds a user key of `inputs0` is an input. -/
theorem Chosen.mem_inputs1 {tables : ℕ → List (Entry K V)} {c : Compaction K} (h : Chosen v c)
    (htable : ∀ level, ∀ f ∈ v level, IsTableOf f (tables f.number)) {f g : FileMetaData K}
    (hf : f ∈ c.inputs0) (hg : g ∈ v (c.level + 1)) {e e' : Entry K V}
    (he : e ∈ tables f.number) (he' : e' ∈ tables g.number)
    (huser : e'.1.user_key = e.1.user_key) : g ∈ c.inputs1 := by
  obtain ⟨smallest, largest, hr, heq⟩ := h.inputs1
  have hrange := getRange_spec hr
  have hfe := (htable _ f (h.sub f hf)).range e he
  have hge := (htable _ g hg).range e' he'
  rw [heq]
  refine mem_filter.2 ⟨hg, overlaps_some.2 ⟨?_, ?_⟩⟩
  · calc smallest.user_key ≤ e.1.user_key :=
          InternalKey.user_key_le ((hrange.smallest_le f hf).trans hfe.1)
      _ = e'.1.user_key := huser.symm
      _ ≤ g.largest.user_key := InternalKey.user_key_le hge.2
  · calc g.smallest.user_key ≤ e'.1.user_key := InternalKey.user_key_le hge.1
      _ = e.1.user_key := huser
      _ ≤ largest.user_key := InternalKey.user_key_le (hfe.2.trans (hrange.le_largest f hf))

/-- **The inputs of a compaction are closed under user keys if and only if** their first range does
not separate two files of the next level that share a user key. -/
theorem userKeysClosed_iff (max_file_size : ℕ) (v : Version K) (tables : ℕ → List (Entry K V))
    (level : ℕ) (inputs : List (FileMetaData K))
    (htable : ∀ level, ∀ f ∈ v level, IsTableOf f (tables f.number))
    (hord : ∀ level, 1 ≤ level → Ordered (v level))
    (hinit : InitialInputs max_file_size v level inputs) :
    ∃ c, setupOtherInputs max_file_size v level inputs = some c ∧
      (UserKeysClosed v tables c ↔ SeparatesNoUserKey v level inputs) := by
  have hv : WellFormed v := ⟨fun level f hf => (htable level f hf).nonempty,
    fun level h0 => hord level (Nat.one_le_iff_ne_zero.2 h0)⟩
  have hseed := hinit.seed hv
  obtain ⟨c, hc⟩ := setupOtherInputs_isSome max_file_size v level hseed.nonempty
  refine ⟨c, hc, ?_⟩
  obtain ⟨hlevel, hchosen, -⟩ := setupOtherInputs_spec hv hseed hc
  obtain ⟨smallest, largest, hr, hinputs1⟩ := inputs1_eq hv hseed hc
  have hmem : ∀ g ∈ v (level + 1), g ∈ c.inputs1 ↔
      overlaps (some smallest.user_key) (some largest.user_key) g = true := fun g hg => by
    rw [hinputs1, mem_filter, and_iff_right hg]
  subst hlevel
  constructor
  · -- the last entry of one file and the first entry of the other
    intro hclosed smallest' largest' hr' f hf g hg huser
    obtain ⟨rfl, rfl⟩ := Prod.mk.inj (Option.some.inj (hr.symm.trans hr'))
    obtain ⟨e, he, hlast⟩ := (htable _ f hf).largest_mem
    obtain ⟨e', he', hfirst⟩ := (htable _ g hg).smallest_mem
    have hsame : e.1.user_key = e'.1.user_key := by rw [hlast, hfirst, huser]
    rw [Bool.eq_iff_iff, ← hmem f hf, ← hmem g hg]
    constructor
    · intro hin
      by_contra hout
      exact (hclosed _ ⟨f, mem_append_right _ hin, e, he, rfl⟩).2 g hg hout e' he' hsame.symm
    · intro hin
      by_contra hout
      exact (hclosed _ ⟨g, mem_append_right _ hin, e', he', rfl⟩).2 f hf hout e he hsame
  · rintro hsep u ⟨f, hf, e, he, rfl⟩
    refine ⟨fun g hg hout e' he' hu f' hf' e'' he'' hu' => ?_, fun g hg hout e' he' huser => ?_⟩
    · exact hchosen.settled.not_older (htable _) hchosen.sub hg hout hf' he' he''
        (hu.trans hu'.symm)
    · rcases mem_append.1 hf with hf | hf
      · exact hout (hchosen.mem_inputs1 htable hf hg he he' huser)
      · have hf' := hchosen.sub_next f hf
        have hne : f ≠ g := fun heq => hout (heq ▸ hf)
        have hsep := hsep smallest largest hr
        rw [hmem g hg] at hout
        rw [hmem f hf'] at hf
        rcases (hord _ (Nat.le_add_left 1 _)).meet (htable _) hf' hg hne he he' huser.symm with
          hmeet | hmeet
        · exact hout ((hsep f hf' g hg hmeet).symm.trans hf)
        · exact hout ((hsep g hg f hf' hmeet).trans hf)

namespace SplitKey

/-- The entries of three table files: `m` in level 1; `l` to `p`, and from `k` on, in level 2. -/
def tables (k : UInt8) : ℕ → List (Entry Bytes Bytes)
  | 10 => [(⟨[109], 9, .value⟩, [])]
  | 11 => [(⟨[108], 5, .value⟩, []), (⟨[112], 7, .deletion⟩, [])]
  | 12 => [(⟨[k], 3, .value⟩, []), (⟨[114], 2, .value⟩, [])]
  | _ => []

/-- The version with the three files. -/
def version (k : UInt8) : Version Bytes
  | 1 => [⟨10, 100, ⟨[109], 9, .value⟩, ⟨[109], 9, .value⟩⟩]
  | 2 => [⟨11, 100, ⟨[108], 5, .value⟩, ⟨[112], 7, .deletion⟩⟩,
      ⟨12, 100, ⟨[k], 3, .value⟩, ⟨[114], 2, .value⟩⟩]
  | _ => []

theorem version_table {k : UInt8} (hk : k = 112 ∨ k = 113) :
    ∀ level, ∀ f ∈ version k level, IsTableOf f (tables k f.number) := by
  intro level
  match level with
  | 0 => exact fun f hf => absurd hf not_mem_nil
  | 1 => rcases hk with rfl | rfl <;> decide
  | 2 => rcases hk with rfl | rfl <;> decide
  | _ + 3 => exact fun f hf => absurd hf not_mem_nil

theorem version_ordered {k : UInt8} (hk : k = 112 ∨ k = 113) :
    ∀ level, 1 ≤ level → Ordered (version k level) := by
  intro level hlevel
  match level with
  | 1 => exact pairwise_singleton _ _
  | 2 => rcases hk with rfl | rfl <;> decide
  | _ + 3 => exact List.Pairwise.nil

theorem initialInputs (k : UInt8) : InitialInputs 2097152 (version k) 1 (version k 1) :=
  have hne : getOverlappingInputs (version k) 1 none none ≠ [] := cons_ne_nil _ _
  .range hne

end SplitKey

open SplitKey in
theorem userKeysClosed_iff_no_split : SeparatesNoUserKey (version 113) 1 (version 113 1) ∧
    ∃ c, setupOtherInputs 2097152 (version 113) 1 (version 113 1) = some c ∧
      (UserKeysClosed (version 113) (tables 113) c ↔
        SeparatesNoUserKey (version 113) 1 (version 113 1)) := by
  refine ⟨fun smallest largest _ => ?_, userKeysClosed_iff 2097152 (version 113) (tables 113) 1
    (version 113 1) (version_table (Or.inr rfl)) (version_ordered (Or.inr rfl))
    (initialInputs 113)⟩
  intro f hf g hg huser
  -- no file ends with the user key with which another one begins
  have hsame : ∀ f ∈ version 113 2, ∀ g ∈ version 113 2,
      f.largest.user_key = g.smallest.user_key → f = g := by decide
  rw [hsame f hf g hg huser]

open SplitKey in
/-- **The deletion of `p` is compacted, an older entry of `p` in the same level stays.** -/
theorem userKey_split_in_next_level :
    (∀ level, ∀ f ∈ version 112 level, IsTableOf f (tables 112 f.number)) ∧
      (∀ level, 1 ≤ level → Ordered (version 112 level)) ∧
      ∃ c, compactRange 2097152 (version 112) 1 none none = some c ∧
        ¬ UserKeysClosed (version 112) (tables 112) c := by
  refine ⟨version_table (Or.inl rfl), version_ordered (Or.inl rfl), ?_⟩
  have h : (compactRange 2097152 (version 112) 1 none none).map
      (fun c => (c.level, c.inputs0.map FileMetaData.number, c.inputs1.map FileMetaData.number)) =
        some (1, [10], [11]) := by decide +kernel
  obtain ⟨c, hc, heq⟩ := Option.map_eq_some_iff.1 h
  simp only [Prod.mk.injEq] at heq
  obtain ⟨hlevel, -, hinputs⟩ := heq
  obtain ⟨f, hf, hnumber⟩ := mem_map.1 (hinputs ▸ mem_singleton_self 11)
  refine ⟨c, hc, fun hclosed => ?_⟩
  have hoccurs : Occurs (tables 112) (c.inputs0 ++ c.inputs1) [112] :=
    ⟨f, mem_append_right _ hf, (⟨[112], 7, .deletion⟩, []), by rw [hnumber]; decide, rfl⟩
  have hout : (⟨12, 100, ⟨[112], 3, .value⟩, ⟨[114], 2, .value⟩⟩ : FileMetaData Bytes) ∉
      c.inputs1 := fun hin => by
    have := mem_map_of_mem (f := FileMetaData.number) hin
    rw [hinputs] at this
    exact absurd this (by decide)
  refine (hclosed [112] hoccurs).2 _ ?_ hout (⟨[112], 3, .value⟩, []) (by decide) rfl
  rw [hlevel]
  decide

end Bourbon
