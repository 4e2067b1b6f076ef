import Bourbon.Db.Sessions

/-!
# Learning levels again

`LevelLearn` adds the boundary keys of a level to the keys that its model has collected, and trains
on all of them unless a compaction is waiting.  It is called after compactions by the background
thread, which is itself counted as waiting.

* `Session.relearn_unchanged_iff` : learning an unchanged level again leaves all answers as they
  were exactly if the second call does not train;
* `BackgroundState`, `backgroundStep` : the scheduling of background work, with the learning at its
  end;
* `relearned_iff` : the models of the two levels of a compaction are not learned afterwards, unless
  the levels are empty or have not changed.
-/

namespace Bourbon

open List Function Option

open Decimal LearnedIndexData

/-! ### The same level again -/

namespace LearnedIndexData

variable {m : LearnedIndexData}

/-- **What training does.**  The bounds and the size are those of the collected keys even if there
are no segments; with segments, all keys have been read. -/
theorem learn_fields {m' : LearnedIndexData} {awaiting : ℕ → Bool} {success : Bool}
    (h : m.learn awaiting = some (m', success)) :
    m'.size = m.string_keys.length ∧
      m'.max_key = toUint64 (atoll (m.string_keys.getLastD [])) ∧ m'.is_level = m.is_level ∧
      m'.string_keys = m.string_keys ∧
      (success = true → m'.learned = true ∧ 1 < m'.string_segments.length ∧
        ∀ k ∈ m.string_keys, (stoull k).isSome = true) ∧
      (success = false → m'.string_segments = m.string_segments ∧ m'.learned = m.learned) := by
  obtain ⟨-, segs, htrain, hsuccess, rfl⟩ := learn_some h
  refine ⟨rfl, rfl, rfl, rfl, fun ht => ?_, fun hf => ?_⟩
  · have hsegs : segs ≠ [] := of_decide_eq_true (hsuccess.symm.trans ht)
    refine ⟨by rw [ht, Bool.or_true], ?_, PLR.readable_of_train htrain hsegs⟩
    have := length_pos_iff.2 hsegs
    simp only [if_neg hsegs, length_append, length_singleton]
    omega
  · have hsegs : segs = [] := not_not.1 (of_decide_eq_false (hsuccess.symm.trans hf))
    exact ⟨if_pos hsegs, by rw [hf, Bool.or_false]⟩

theorem learn_isSome (awaiting : ℕ → Bool) (hne : m.string_keys ≠ [])
    (hkeys : ∀ k ∈ m.string_keys, (stoull k).isSome = true) :
    (m.learn awaiting).isSome = true := by
  obtain ⟨segs, htrain⟩ := isSome_iff_exists.1
    (PLR.train_isSome m.error awaiting (!m.is_level) hkeys)
  rw [learn, if_neg hne]
  simp only [htrain]
  split_ifs <;> rfl

variable {files : List (FileMetaData Bytes)}

/-- The model has collected boundary keys of the files, and was trained on some of them if it is
learned. -/
structure Collects (files : List (FileMetaData Bytes)) (m : LearnedIndexData) : Prop where
  is_level : m.is_level = true
  keys : ∀ k ∈ m.string_keys, k ∈ boundaryKeys files
  size_le : m.size ≤ m.string_keys.length
  learned : m.learned = true → files ≠ [] ∧ 1 < m.string_segments.length ∧
    m.max_key = toUint64 (atoll ((boundaryKeys files).getLastD [])) ∧
    ∀ k ∈ boundaryKeys files, (stoull k).isSome = true

theorem Collects.collect (h : Collects files m)
    {ks : List Bytes} (hks : ∀ k ∈ ks, k ∈ boundaryKeys files) (level cost : ℕ) (filled : Bool) :
    Collects files { m with
      is_level := true, level := level, string_keys := m.string_keys ++ ks, filled := filled
      cost := cost } ∧
    ∀ key, { m with
      is_level := true, level := level, string_keys := m.string_keys ++ ks, filled := filled
      cost := cost }.getPosition key = m.getPosition key := by
  refine ⟨⟨rfl, fun k hk => ?_, ?_, h.learned⟩, fun key => ?_⟩
  · exact (mem_append.1 hk).elim (h.keys k) (hks k)
  · simp only [length_append]
    exact h.size_le.trans (Nat.le_add_right _ _)
  · simp only [getPosition, h.is_level]
    rfl

theorem Collects.getPosition_behind (h : Collects files m)
    (hlearned : m.learned = true) (hkeys : ∀ k ∈ boundaryKeys files, IsNumeral k) :
    m.getPosition (numeral (toUint64 (atoll ((boundaryKeys files).getLastD [])) + 1)) =
      some (m.size, m.size) := by
  obtain ⟨hfiles, hsegs, hmax, -⟩ := h.learned hlearned
  have hbk := boundaryKeys_ne_nil hfiles
  have hlast : (boundaryKeys files).getLastD [] ∈ boundaryKeys files := by
    rw [getLastD_eq_getLast?, List.getLast?_eq_some_getLast hbk]
    exact getLast_mem hbk
  have hbound := toUint64_atoll (hkeys _ hlast)
  obtain ⟨hnum, hval⟩ := numeral_spec
    (show toUint64 (atoll ((boundaryKeys files).getLastD [])) + 1 < 10 ^ 20 by omega)
  have hint : sliceToInteger (numeral (toUint64 (atoll ((boundaryKeys files).getLastD [])) + 1)) =
      m.max_key + 1 := by
    rw [sliceToInteger_eq hnum.2, hval, hmax]
    omega
  rw [getPosition, if_neg (by omega), hint]
  exact if_pos (Nat.lt_succ_self _)

end LearnedIndexData

/-- What a call of `LevelLearn` finds. -/
structure LearnCall where
  /-- The version is still the caller's. -/
  entered : Bool
  /-- The version is still the caller's after the level has been filled, and no compaction is
  awaited. -/
  idle : Bool
  awaiting : ℕ → Bool
  cost : ℕ

namespace Session

/-- A call of `LevelLearn` for one level. -/
def learnLevel (level : ℕ) (x : Session) (c : LearnCall) : Option Session :=
  x.levelLearn level c.entered c.idle c.awaiting c.cost

variable {x : Session} {level : ℕ}

/-- **One call of `LevelLearn`.**  If it trains, the size grows by the number of boundary keys;
otherwise no answer changes. -/
theorem learnLevel_spec {x' : Session} {c : LearnCall}
    (h : (x.level_models level).data.Collects (x.current level))
    (hx' : x.learnLevel level c = some x') :
    x'.current = x.current ∧ (x'.level_models level).data.Collects (x.current level) ∧
      ((x.level_models level).data.learned = true → (x'.level_models level).data.learned = true) ∧
      (if c.entered = true ∧ c.idle = true ∧ x.current level ≠ [] then
        (x.level_models level).data.size < (x'.level_models level).data.size
      else ∀ key, (x'.level_models level).data.getPosition key =
        (x.level_models level).data.getPosition key) := by
  obtain ⟨entered, idle, awaiting, cost⟩ := c
  have hnone : ∀ k ∈ ([] : List Bytes), k ∈ boundaryKeys (x.current level) := fun k hk =>
    absurd hk not_mem_nil
  rw [learnLevel, levelLearn] at hx'
  by_cases hlevel : level < kNumLevels
  case neg =>
    rw [if_neg hlevel] at hx'
    cases hx'
  rw [if_pos hlevel] at hx'
  cases entered with
  | false =>
    obtain ⟨hcollects, hsame⟩ := h.collect hnone level (x.level_models level).data.cost
      (x.level_models level).data.filled
    simp only [append_nil] at hcollects hsame
    obtain rfl := some.inj hx'
    refine ⟨rfl, ?_⟩
    simp only [update_self, Bool.false_eq_true, false_and, if_false]
    exact ⟨hcollects, id, hsame⟩
  | true =>
    by_cases hfiles : x.current level = []
    · obtain ⟨hcollects, hsame⟩ := h.collect hnone level cost (x.level_models level).data.filled
      simp only [append_nil] at hcollects hsame
      simp only [fillLevelModel, fillLevel, if_true, if_pos hfiles, Bool.false_and,
        Bool.false_eq_true, if_false, map_some, Bool.false_or, Option.some.injEq] at hx'
      obtain rfl := hx'
      refine ⟨rfl, ?_⟩
      simp only [update_self, hfiles, ne_eq, not_true_eq_false, and_false, if_false]
      exact ⟨hfiles ▸ hcollects, id, hsame⟩
    · obtain ⟨hcollects, hsame⟩ := h.collect (fun k hk => hk) level cost true
      simp only [fillLevelModel, fillLevel, if_true, if_neg hfiles, Bool.true_and,
        Bool.true_or] at hx'
      cases idle with
      | false =>
        simp only [Bool.false_eq_true, if_false, map_some, Option.some.injEq] at hx'
        obtain rfl := hx'
        refine ⟨rfl, ?_⟩
        simp only [update_self, Bool.false_eq_true, false_and, and_false, if_false]
        exact ⟨hcollects, id, hsame⟩
      | true =>
        obtain ⟨data, hdata⟩ : ∃ data, data = { (x.level_models level).data with
            is_level := true, level := level, filled := true
            string_keys := (x.level_models level).data.string_keys ++
              boundaryKeys (x.current level) } := ⟨_, rfl⟩
        have hbk := boundaryKeys_ne_nil hfiles
        have hcollected : data.string_keys = (x.level_models level).data.string_keys ++
            boundaryKeys (x.current level) := by rw [hdata]
        have hmem : ∀ k ∈ data.string_keys, k ∈ boundaryKeys (x.current level) := by
          rw [hdata]
          exact hcollects.keys
        have hlast : data.string_keys.getLastD [] =
            (boundaryKeys (x.current level)).getLastD [] := by
          rw [hcollected, getLastD_eq_getLast?, getLastD_eq_getLast?,
            List.getLast?_append_of_ne_nil _ hbk]
        simp only [if_true, TrackedModel.learn, ← hdata] at hx'
        cases hlearn : data.learn awaiting with
        | none =>
          rw [hlearn] at hx'
          cases hx'
        | some r =>
        obtain ⟨data', success⟩ := r
        rw [hlearn] at hx'
        simp only [map_some, Option.some.injEq] at hx'
        obtain rfl := hx'
        obtain ⟨hsize, hmax, hlev, hsame', htrue, hfalse⟩ := learn_fields hlearn
        refine ⟨rfl, ?_⟩
        simp only [update_self, ne_eq, hfiles, not_false_eq_true, and_self, if_true]
        -- the segments are new, or those from before
        have hsegs : data'.learned = true → 1 < data'.string_segments.length ∧
            ∀ k ∈ boundaryKeys (x.current level), (stoull k).isSome = true := by
          intro hl
          cases success with
          | true =>
            obtain ⟨-, hlen, hread⟩ := htrue rfl
            refine ⟨hlen, fun k hk => hread k ?_⟩
            rw [hcollected]
            exact mem_append_right _ hk
          | false =>
            obtain ⟨hs, hl'⟩ := hfalse rfl
            rw [hs, hdata]
            rw [hl', hdata] at hl
            exact ⟨(h.learned hl).2.1, (h.learned hl).2.2.2⟩
        refine ⟨⟨?_, ?_, ?_, fun hl => ⟨hfiles, (hsegs hl).1, ?_, (hsegs hl).2⟩⟩, fun hl => ?_, ?_⟩
        · rw [hlev, hdata]
        · exact fun k hk => hmem k (hsame' ▸ hk)
        · simp only [hsize, hsame', le_refl]
        · rw [hmax, hlast]
        · cases success with
          | true => exact (htrue rfl).1
          | false => rw [(hfalse rfl).2, hdata]; exact hl
        · have := length_pos_iff.2 hbk
          have := h.size_le
          rw [hsize, hcollected, length_append]
          omega

theorem learnLevel_isSome (hlevel : level < kNumLevels)
    (h : (x.level_models level).data.Collects (x.current level))
    (hlearned : (x.level_models level).data.learned = true) (c : LearnCall) :
    (x.learnLevel level c).isSome = true := by
  obtain ⟨hfiles, -, -, hread⟩ := h.learned hlearned
  rw [learnLevel, levelLearn, if_pos hlevel, isSome_map]
  by_cases htrains : (x.fillLevelModel level c.entered c.idle).2 = true
  · obtain ⟨-, -, -, hkeys⟩ := (x.fillLevelModel_spec level c.entered c.idle).2.2 htrains
    have hsome : ((x.fillLevelModel level c.entered c.idle).1.data.learn c.awaiting).isSome =
        true := by
      refine learn_isSome _ ?_ fun k hk => ?_
      · rw [hkeys]
        exact append_ne_nil_of_right_ne_nil _ (boundaryKeys_ne_nil hfiles)
      · rw [hkeys] at hk
        exact hread k ((mem_append.1 hk).elim (h.keys k) id)
    obtain ⟨r, hr⟩ := isSome_iff_exists.1 hsome
    simp only [htrains, if_true, TrackedModel.learn, hr]
    rfl
  · simp only [htrains, Bool.false_eq_true, if_false]
    rfl

theorem collects_newModel (o : ModelOptions) (files : List (FileMetaData Bytes)) :
    (o.newModel true).data.Collects files where
  is_level := rfl
  keys := fun _ hk => absurd hk not_mem_nil
  size_le := le_rfl
  learned := fun hl => absurd hl Bool.false_ne_true

theorem collects_run {x₁ : Session} (hfresh : x.level_models level = x.options.newModel true)
    {calls : List LearnCall} (hrun : Steps.run (learnLevel level) x calls = some x₁) :
    x₁.current = x.current ∧ (x₁.level_models level).data.Collects (x.current level) := by
  let inv : Session → Prop := fun y =>
    y.current = x.current ∧ (y.level_models level).data.Collects (x.current level)
  have hstep : ∀ y c y', inv y → True → y.learnLevel level c = some y' → inv y' := by
    rintro y c y' ⟨hcur, hcollects⟩ - hy'
    obtain ⟨hcur', hcollects', -⟩ := learnLevel_spec (hcur.symm ▸ hcollects) hy'
    exact ⟨hcur'.trans hcur, hcur ▸ hcollects'⟩
  have hinit : inv x := ⟨rfl, by rw [hfresh]; exact collects_newModel _ _⟩
  have hinv : inv x₁ := Steps.invariant hstep hinit (Steps.meets_true _ _) hrun
  exact hinv

/-- **Learning an unchanged level again** leaves the answers as they were exactly if the second call
does not train: the keys of the level are collected a second time, and the size of the model with
them, whether the training completes or is aborted. -/
theorem relearn_unchanged_iff (x₀ x₁ : Session) (level : ℕ) (hlevel : level < kNumLevels)
    (hkeys : ∀ k ∈ boundaryKeys (x₀.current level), IsNumeral k)
    (hfresh : x₀.level_models level = x₀.options.newModel true) (calls : List LearnCall)
    (hrun : Steps.run (learnLevel level) x₀ calls = some x₁)
    (hlearned : (x₁.level_models level).data.learned = true) (c : LearnCall) :
    ∃ x₂, x₁.learnLevel level c = some x₂ ∧
      ((∀ key, (x₂.level_models level).data.getPosition key =
        (x₁.level_models level).data.getPosition key) ↔
          ¬ (c.entered = true ∧ c.idle = true)) := by
  obtain ⟨hcur, hcollects⟩ := collects_run hfresh hrun
  rw [← hcur] at hkeys hcollects
  obtain ⟨x₂, hx₂⟩ := isSome_iff_exists.1 (learnLevel_isSome hlevel hcollects hlearned c)
  obtain ⟨-, hcollects₂, hlearned₂, hanswers⟩ := learnLevel_spec hcollects hx₂
  refine ⟨x₂, hx₂, ?_⟩
  have hfiles := (hcollects.learned hlearned).1
  by_cases htrains : c.entered = true ∧ c.idle = true
  · rw [if_pos ⟨htrains.1, htrains.2, hfiles⟩] at hanswers
    refine iff_of_false (fun hsame => ?_) (not_not.2 htrains)
    -- a key behind the bounds shows the size
    have hbehind := hsame (numeral
      (toUint64 (atoll ((boundaryKeys (x₁.current level)).getLastD [])) + 1))
    rw [hcollects.getPosition_behind hlearned hkeys,
      hcollects₂.getPosition_behind (hlearned₂ hlearned) hkeys, Option.some.injEq,
      Prod.mk.injEq] at hbehind
    omega
  · rw [if_neg fun hall => htrains ⟨hall.1, hall.2.1⟩] at hanswers
    exact iff_of_true hanswers htrains

end Session

namespace ThreeFiles

/-- A file with the keys from `10 * number + 1` to `10 * number + 9`. -/
def file (number : ℕ) : FileMetaData Bytes :=
  ⟨number, 100, ⟨numeral (10 * number + 1), 5, .value⟩, ⟨numeral (10 * number + 9), 6, .value⟩⟩

/-- Level 1 has three files, and a fresh model. -/
def session : Session where
  options := ⟨10, 1, false, false⟩
  current := fun level => if level = 1 then [file 1, file 2, file 3] else []
  next_file_number := 4
  pending_outputs := []
  level_models := fun _ => ModelOptions.newModel ⟨10, 1, false, false⟩ true
  file_models := fun _ => none

/-- A call that trains to the end. -/
def train : LearnCall := ⟨true, true, fun _ => false, 0⟩

/-- A call that is aborted at the first check for compactions. -/
def abort : LearnCall := ⟨true, true, fun _ => true, 0⟩

/-- The answer of the model of level 1 for the key `40` after some calls. -/
def answer (calls : List LearnCall) : Option (Bool × Option (ℕ × ℕ)) :=
  (Steps.run (Session.learnLevel 1) session calls).map fun x =>
    ((x.level_models 1).data.learned, (x.level_models 1).data.getPosition (numeral 40))

theorem keys : ∀ k ∈ boundaryKeys (session.current 1), IsNumeral k := by
  decide +kernel

end ThreeFiles

open ThreeFiles in
/-- The level is learned, and learned again: completely, or with an abort. -/
theorem relearn_three_files :
    ThreeFiles.answer [train] = some (true, some (6, 6)) ∧
    ThreeFiles.answer [train, train] = some (true, some (12, 12)) ∧
    ThreeFiles.answer [train, abort] = some (true, some (12, 12)) := by
  decide +kernel

open ThreeFiles in
theorem relearn_unchanged_iff_three_files :
    ∃ x₁, Steps.run (Session.learnLevel 1) session [train] = some x₁ ∧
      (x₁.level_models 1).data.learned = true ∧
      ∃ x₂, x₁.learnLevel 1 ⟨true, false, fun _ => false, 0⟩ = some x₂ ∧
        ((∀ key, (x₂.level_models 1).data.getPosition key =
          (x₁.level_models 1).data.getPosition key) ↔ ¬ (true = true ∧ false = true)) := by
  have hlearned : (Steps.run (Session.learnLevel 1) session [train]).map
      (fun x => (x.level_models 1).data.learned) = some true := by decide +kernel
  obtain ⟨x₁, hrun, hl⟩ := map_eq_some_iff.1 hlearned
  exact ⟨x₁, hrun, hl, Session.relearn_unchanged_iff session x₁ 1 (by decide) keys rfl [train] hrun
    hl ⟨true, false, fun _ => false, 0⟩⟩

/-! ### Background work -/

/-- Where the background thread is. -/
inductive BackgroundThread where
  /-- `BackgroundCall` is not running. -/
  | waiting
  /-- In `BackgroundCompaction`. -/
  | compacting
  /-- `BackgroundCompaction` has returned, or was not called. -/
  | returned
  deriving DecidableEq

/-- The scheduling of background work, in the mode `MOD == 9` without `fresh_write`. -/
structure BackgroundState where
  store : StoreState
  background_compaction_scheduled : Bool
  shutting_down : Bool
  bg_error : Bool
  /-- `imm_` is not null. -/
  imm : Bool
  /-- `manual_compaction_` is not null. -/
  manual_compaction : Bool
  compaction_awaiting : ℤ
  thread : BackgroundThread

/-- What the threads that share a level model do. -/
inductive BackgroundAction where
  /-- Writers, requests and errors change what the scheduling depends on. -/
  | change (shutting_down bg_error imm manual_compaction : Bool)
  | maybeScheduleCompaction
  /-- `BackgroundCall` begins. -/
  | backgroundCall
  /-- A step of `BackgroundCompaction`: tables are built, flushes installed, files deleted. -/
  | work (a : StoreAction)
  /-- `BackgroundCompaction` returns after a flush, or without anything to do. -/
  | noCompaction
  /-- `BackgroundCompaction` ends a compaction of `level`, with its edit unless it has failed,
  learns the two levels and returns. -/
  | compaction (level : ℕ) (edit : Option (VersionEdit Bytes)) (cost cost' : ℕ)
  /-- The rest of `BackgroundCall`. -/
  | finishCall

/-- What a compaction does to the database before it ends. -/
def StoreAction.isWork : StoreAction → Bool
  | .newFileNumber => true
  | .buildTable _ => true
  | .logAndApply _ => true
  | .deleteObsoleteFiles _ => true
  | _ => false

namespace BackgroundState

/-- `MaybeScheduleCompaction`; `needs` is `NeedsCompaction` of a version. -/
def maybeScheduleCompaction (needs : Version Bytes → Bool) (s : BackgroundState) :
    BackgroundState :=
  if s.background_compaction_scheduled then s
  else if s.shutting_down then s
  else if s.bg_error then s
  else if !s.imm && !s.manual_compaction && !s.store.session.any fun x => needs x.current then s
  else { s with
    background_compaction_scheduled := true
    compaction_awaiting := s.compaction_awaiting + 1 }

/-- `LevelLearn`, called by the background thread with the current version. -/
def levelLearn (s : BackgroundState) (x : Session) (level cost : ℕ) : Option Session :=
  x.levelLearn level true (decide (s.compaction_awaiting = 0))
    (fun _ => decide (s.compaction_awaiting ≠ 0)) cost

/-- The results of a compaction are installed, unless it has failed; it deletes files of its
level. -/
def install (s : BackgroundState) (level : ℕ) : Option (VersionEdit Bytes) → Option StoreState
  | none => some s.store
  | some edit =>
    s.store.session.bind fun x =>
      if edit.deleted_files.any fun p => p.1 = level then x.logAndApply s.store.disk edit else none

/-- The end of a compaction. -/
def compaction (s : BackgroundState) (level : ℕ) (edit : Option (VersionEdit Bytes))
    (cost cost' : ℕ) : Option BackgroundState :=
  (s.install level edit).bind fun store =>
  store.session.bind fun x =>
  (s.levelLearn x level cost).bind fun x =>
  (s.levelLearn x (level + 1) cost').map fun x =>
    { s with store := { store with session := some x }, thread := .returned }

end BackgroundState

/-- One action. -/
def backgroundStep (needs : Version Bytes → Bool) (s : BackgroundState) :
    BackgroundAction → Option BackgroundState
  | .change shutting_down bg_error imm manual_compaction =>
    some { s with
      shutting_down := shutting_down, bg_error := bg_error, imm := imm
      manual_compaction := manual_compaction }
  | .maybeScheduleCompaction => some (s.maybeScheduleCompaction needs)
  | .backgroundCall =>
    if s.thread = .waiting ∧ s.background_compaction_scheduled then
      some { s with thread := if s.shutting_down || s.bg_error then .returned else .compacting }
    else none
  | .work a =>
    if s.thread = .compacting ∧ a.isWork then
      (storeStep s.store a).map fun store => { s with store := store }
    else none
  | .noCompaction => if s.thread = .compacting then some { s with thread := .returned } else none
  | .compaction level edit cost cost' =>
    if s.thread = .compacting then s.compaction level edit cost cost' else none
  | .finishCall =>
    if s.thread = .returned then
      let s := { s with background_compaction_scheduled := false }.maybeScheduleCompaction needs
      some { s with compaction_awaiting := s.compaction_awaiting - 1, thread := .waiting }
    else none

namespace BackgroundState

/-- Nothing is scheduled. -/
structure Idle (s : BackgroundState) : Prop where
  scheduled : s.background_compaction_scheduled = false
  awaiting : s.compaction_awaiting = 0
  thread : s.thread = .waiting

/-- The scheduled work is counted, and a call of the background thread is scheduled work until it
ends. -/
structure Counted (s : BackgroundState) : Prop where
  awaiting : s.compaction_awaiting = if s.background_compaction_scheduled then 1 else 0
  scheduled : s.thread ≠ .waiting → s.background_compaction_scheduled = true

variable {needs : Version Bytes → Bool} {s s' : BackgroundState} {a : BackgroundAction}

theorem Idle.counted (h : s.Idle) : s.Counted :=
  ⟨by rw [h.awaiting, h.scheduled]; rfl, fun hne => absurd h.thread hne⟩

theorem maybeScheduleCompaction_spec (needs : Version Bytes → Bool) (s : BackgroundState) :
    ∃ b : Bool, s.maybeScheduleCompaction needs = { s with
        background_compaction_scheduled := s.background_compaction_scheduled || b
        compaction_awaiting := s.compaction_awaiting + if b then 1 else 0 } ∧
      (b = true → s.background_compaction_scheduled = false) := by
  obtain ⟨store, scheduled, shutting_down, bg_error, imm, manual, awaiting, thread⟩ := s
  by_cases hscheduled : scheduled = true
  · exact ⟨false, by simp [maybeScheduleCompaction, hscheduled], fun h => by cases h⟩
  · have hfalse : scheduled = false := by simpa using hscheduled
    by_cases hgo : shutting_down = true ∨ bg_error = true ∨
        (!imm && !manual && !store.session.any fun x => needs x.current) = true
    · refine ⟨false, ?_, fun h => by cases h⟩
      simp only [maybeScheduleCompaction, hfalse]
      rcases hgo with h | h | h <;> simp [h]
    · obtain ⟨h1, h2, h3⟩ := not_or.1 hgo |>.imp_right not_or.1
      refine ⟨true, ?_, fun _ => hfalse⟩
      simp only [maybeScheduleCompaction, hfalse, if_neg h1, if_neg h2, if_neg h3]
      simp

/-- **Every step keeps the count.** -/
theorem Counted.step (h : s.Counted) (hstep : backgroundStep needs s a = some s') : s'.Counted := by
  cases a with
  | change shutting_down bg_error imm manual_compaction =>
    obtain rfl := some.inj hstep
    exact ⟨h.awaiting, h.scheduled⟩
  | maybeScheduleCompaction =>
    obtain rfl := some.inj hstep
    obtain ⟨b, heq, hb⟩ := maybeScheduleCompaction_spec needs s
    rw [heq]
    refine ⟨?_, fun hne => by simp only [h.scheduled hne, Bool.true_or]⟩
    simp only [h.awaiting]
    cases b with
    | false => simp
    | true => simp [hb rfl]
  | backgroundCall =>
    rw [backgroundStep] at hstep
    split_ifs at hstep with hguard
    · obtain rfl := some.inj hstep
      exact ⟨h.awaiting, fun _ => hguard.2⟩
    · obtain rfl := some.inj hstep
      exact ⟨h.awaiting, fun _ => hguard.2⟩
  | work a =>
    rw [backgroundStep] at hstep
    split_ifs at hstep with hguard
    obtain ⟨store, -, rfl⟩ := map_eq_some_iff.1 hstep
    exact ⟨h.awaiting, h.scheduled⟩
  | noCompaction =>
    rw [backgroundStep] at hstep
    split_ifs at hstep with hguard
    obtain rfl := some.inj hstep
    exact ⟨h.awaiting, fun _ => h.scheduled (by rw [hguard]; decide)⟩
  | compaction level edit cost cost' =>
    rw [backgroundStep] at hstep
    split_ifs at hstep with hguard
    obtain ⟨store, -, hstep⟩ := bind_eq_some_iff.1 hstep
    obtain ⟨x, -, hstep⟩ := bind_eq_some_iff.1 hstep
    obtain ⟨x₁, -, hstep⟩ := bind_eq_some_iff.1 hstep
    obtain ⟨x₂, -, rfl⟩ := map_eq_some_iff.1 hstep
    exact ⟨h.awaiting, fun _ => h.scheduled (by rw [hguard]; decide)⟩
  | finishCall =>
    rw [backgroundStep] at hstep
    split_ifs at hstep with hguard
    obtain rfl := some.inj hstep
    obtain ⟨b, heq, -⟩ := maybeScheduleCompaction_spec needs
      { s with background_compaction_scheduled := false }
    have hawaiting := h.awaiting
    rw [h.scheduled (by rw [hguard]; decide), if_pos rfl] at hawaiting
    simp only [heq]
    refine ⟨?_, fun hne => absurd rfl hne⟩
    simp only [hawaiting, Bool.false_or]
    omega

/-- With a compaction awaited, `LevelLearn` does not train. -/
theorem levelLearn_awaited (hne : s.compaction_awaiting ≠ 0) {x x' : Session} {level cost : ℕ}
    (h : s.levelLearn x level cost = some x') :
    x'.current = x.current ∧
      ∀ i, (x'.level_models i).data.learned = (x.level_models i).data.learned := by
  rw [levelLearn, Session.levelLearn] at h
  by_cases hlevel : level < kNumLevels
  case neg =>
    rw [if_neg hlevel] at h
    cases h
  rw [if_pos hlevel] at h
  obtain ⟨hlearned, -, htrains⟩ := x.fillLevelModel_spec level true
    (decide (s.compaction_awaiting = 0))
  have hfalse : (x.fillLevelModel level true (decide (s.compaction_awaiting = 0))).2 = false := by
    by_contra hc
    exact hne (of_decide_eq_true (htrains (by simpa using hc)).2.1)
  simp only [hfalse, Bool.false_eq_true, if_false, map_some, Option.some.injEq] at h
  subst h
  refine ⟨rfl, fun i => ?_⟩
  by_cases hi : i = level
  · subst hi
    simp only [update_self]
    exact hlearned
  · simp only [update_of_ne hi]

end BackgroundState

/-- **The levels of a compaction are not learned again.**  When `BackgroundCompaction` returns after
a successful compaction, nothing else is scheduled, and the two levels have learned models only if
they are empty, or if the compaction has not touched the next level and its model was learned
before. -/
theorem relearned_iff (needs : Version Bytes → Bool) (s₀ s s' : BackgroundState) (hidle : s₀.Idle)
    (as : List BackgroundAction) (hrun : Steps.run (backgroundStep needs) s₀ as = some s)
    (level cost cost' : ℕ) (edit : VersionEdit Bytes) (x : Session)
    (hx : s.store.session = some x)
    (hstep : backgroundStep needs s (.compaction level (some edit) cost cost') = some s') :
    s'.compaction_awaiting = 1 ∧ ∃ x', s'.store.session = some x' ∧
      ((∀ i, i = level ∨ i = level + 1 → x'.current i ≠ [] →
          (x'.level_models i).data.learned = true) ↔
        applyEdit x.current edit level = [] ∧
          (applyEdit x.current edit (level + 1) = [] ∨
            edit.changes (level + 1) = false ∧
              (x.level_models (level + 1)).data.learned = true)) := by
  have hcounted : s.Counted := Steps.invariant
    (fun _ _ _ h (_ : True) hs => BackgroundState.Counted.step h hs) hidle.counted
    (Steps.meets_true _ _) hrun
  rw [backgroundStep] at hstep
  split_ifs at hstep with hguard
  have hawaiting : s.compaction_awaiting = 1 := by
    rw [hcounted.awaiting, hcounted.scheduled (by rw [hguard]; decide), if_pos rfl]
  have hne : s.compaction_awaiting ≠ 0 := by omega
  rw [BackgroundState.compaction] at hstep
  obtain ⟨store, hstore, hstep⟩ := bind_eq_some_iff.1 hstep
  obtain ⟨x₁, hx₁, hstep⟩ := bind_eq_some_iff.1 hstep
  obtain ⟨x₂, hx₂, hstep⟩ := bind_eq_some_iff.1 hstep
  obtain ⟨x₃, hx₃, rfl⟩ := map_eq_some_iff.1 hstep
  refine ⟨hawaiting, x₃, rfl, ?_⟩
  obtain ⟨hcur₂, hlearned₂⟩ := BackgroundState.levelLearn_awaited hne hx₂
  obtain ⟨hcur₃, hlearned₃⟩ := BackgroundState.levelLearn_awaited hne hx₃
  -- the edit gives the levels that it names fresh models
  rw [BackgroundState.install, hx, bind_some] at hstore
  split_ifs at hstore with hdeleted
  rw [Session.logAndApply] at hstore
  split_ifs at hstore
  obtain rfl := some.inj hstore
  obtain rfl := some.inj hx₁
  have hchanged : edit.changes level = true := by
    rw [VersionEdit.changes, hdeleted, Bool.true_or]
  simp only [hlearned₃, hlearned₂, hcur₃, hcur₂]
  constructor
  · intro hall
    constructor
    · by_contra hfiles
      have hlearned := hall level (Or.inl rfl) hfiles
      rw [if_pos (Or.inr hchanged)] at hlearned
      cases hlearned
    · by_contra hor
      obtain ⟨hfiles, hunlearned⟩ := not_or.1 hor
      have hlearned := hall (level + 1) (Or.inr rfl) hfiles
      by_cases hfresh : level + 1 = 0 ∨ edit.changes (level + 1) = true
      · rw [if_pos hfresh] at hlearned
        cases hlearned
      · rw [if_neg hfresh] at hlearned
        exact hunlearned ⟨Bool.eq_false_of_not_eq_true (not_or.1 hfresh).2, hlearned⟩
  · rintro ⟨hlevel, hnext⟩ i (rfl | rfl) hfiles
    · exact absurd hlevel hfiles
    · rcases hnext with hempty | ⟨hsame, hlearned⟩
      · exact absurd hempty hfiles
      · rw [if_neg (by simp [hsame])]
        exact hlearned

namespace ThreeFiles

/-- The database is open, and nothing is scheduled. -/
def idle : BackgroundState :=
  ⟨⟨⟨none, fun _ => none, fun _ => none, fun _ => none, 0⟩, some session⟩, false, false, false,
    false, false, 0, .waiting⟩

/-- The first file moves to level 2. -/
def move : VersionEdit Bytes := ⟨[(1, 1)], [(2, file 1)]⟩

/-- A compaction is scheduled and begins. -/
def begins : List BackgroundAction := [.maybeScheduleCompaction, .backgroundCall]

end ThreeFiles

open ThreeFiles in
/-- After the move, levels 1 and 2 have files and no learned model. -/
theorem move_not_relearned :
    (Steps.run (backgroundStep fun _ => true) idle
      (begins ++ [.compaction 1 (some move) 0 0])).map (fun s =>
        (s.compaction_awaiting, s.store.session.map fun x => [1, 2].map fun i =>
          ((x.current i).length, (x.level_models i).data.learned))) =
      some (1, some [(2, false), (1, false)]) := by
  decide +kernel

open ThreeFiles in
theorem relearned_iff_move :
    ∃ s s' x, Steps.run (backgroundStep fun _ => true) idle begins = some s ∧
      s.store.session = some x ∧
      backgroundStep (fun _ => true) s (.compaction 1 (some move) 0 0) = some s' ∧
      s'.compaction_awaiting = 1 ∧ ∃ x', s'.store.session = some x' ∧
      ((∀ i, i = 1 ∨ i = 1 + 1 → x'.current i ≠ [] → (x'.level_models i).data.learned = true) ↔
        applyEdit x.current move 1 = [] ∧
          (applyEdit x.current move (1 + 1) = [] ∨
            move.changes (1 + 1) = false ∧ (x.level_models (1 + 1)).data.learned = true)) := by
  obtain ⟨s, hrun, hsession⟩ : ∃ s, Steps.run (backgroundStep fun _ => true) idle begins = some s ∧
      s.store.session = some session := ⟨_, rfl, rfl⟩
  have hsome : ((Steps.run (backgroundStep fun _ => true) idle begins).bind fun s =>
      backgroundStep (fun _ => true) s (.compaction 1 (some move) 0 0)).isSome = true := by
    decide +kernel
  rw [hrun, bind_some] at hsome
  obtain ⟨s', hstep⟩ := isSome_iff_exists.1 hsome
  exact ⟨s, s', session, hrun, hsession, hstep,
    relearned_iff (fun _ => true) idle s s' ⟨rfl, rfl, rfl⟩ begins hrun 1 0 0 move session hsession
      hstep⟩

end Bourbon
