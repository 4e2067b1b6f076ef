import Bourbon.Db.Sessions

/-!
# Models and what they describe

A level model is only useful for the files it was trained on, a file model for the file.  In one
session `ApplyToModel` keeps level models in step with the version, and file numbers are not used
twice.  Across sessions it is the model files that matter: `<level>.model` is read again for
whatever files the level has by then, and `<number>.fmodel` outlives the database it was written
for.

* `levelModelsDescribe_of_run` : runs in which level models describe their level;
* `levelModel_stale_after_session` : a session without `fresh_write` makes a level model wrong;
* `fileModelsDescribe_of_run` : runs in which file models describe their file;
* `fileModel_stale_after_destroy` : a model file of a deleted database is loaded for a new file.
-/

namespace Bourbon

open List Function

open LearnedIndexData

/-! ### Level models -/

/-- Learned level models were trained on the boundary keys of their level. -/
def LevelModelsDescribe (s : StoreState) : Prop :=
  ∀ x, s.session = some x → ∀ i, 1 ≤ i → i < kNumLevels →
    (x.level_models i).data.learned = true → x.current i ≠ [] →
      (x.level_models i).trained_on = boundaryKeys (x.current i)

/-- Model files that are loaded belong to levels that have not changed since, and a level model
trains with no keys left from an earlier call. -/
def LevelModelsKept (s : StoreState) : StoreAction → Prop
  | .openDB o _ => o.load_level_model = true → ∀ i, 1 ≤ i → i < kNumLevels →
      ∀ f, s.disk.models i = some f → s.disk.recover.1 i ≠ [] →
        f.saved_for = boundaryKeys (s.disk.recover.1 i)
  | .levelLearn level entered idle _ _ => ∀ x, s.session = some x → 1 ≤ level →
      entered = true → idle = true → x.current level ≠ [] →
        (x.level_models level).data.string_keys = []
  | _ => True

instance decidableLevelModelsKept (s : StoreState) : ∀ a, Decidable (LevelModelsKept s a)
  | .openDB o _ => inferInstanceAs <| Decidable <| o.load_level_model = true →
      ∀ i, 1 ≤ i → i < kNumLevels → ∀ f ∈ s.disk.models i, s.disk.recover.1 i ≠ [] →
        f.saved_for = boundaryKeys (s.disk.recover.1 i)
  | .levelLearn level entered idle _ _ => inferInstanceAs <| Decidable <| ∀ x ∈ s.session,
      1 ≤ level → entered = true → idle = true → x.current level ≠ [] →
        (x.level_models level).data.string_keys = []
  | .newFileNumber | .buildTable _ | .logAndApply _ | .deleteObsoleteFiles _ => .isTrue trivial
  | .fileLearn _ _ _ _ | .closeDB _ _ | .destroyDB => .isTrue trivial

/-- The invariant of such runs. -/
structure LevelInv (s : StoreState) : Prop where
  describe : LevelModelsDescribe s
  saved : ∀ i f, 1 ≤ i → i < kNumLevels → s.disk.models i = some f → f.saved_for ≠ [] →
    f.trained_on = f.saved_for

theorem recoveredVersion_level (d : Disk) (recovered : List RecoveredTable) {i : ℕ} (hi : 1 ≤ i) :
    d.recoveredVersion recovered i = d.recover.1 i := by
  apply applyEdit_of_unchanged
  rw [VersionEdit.changes, recoverEdit, any_nil, Bool.false_or, any_eq_false]
  intro p hp
  obtain ⟨r, -, rfl⟩ := mem_map.1 hp
  simp only [decide_eq_true_eq]
  omega

variable {d : Disk} {o : ModelOptions} {recovered : List RecoveredTable} {s' : StoreState}

theorem LevelInv.openDB (h : LevelInv ⟨d, none⟩)
    (hok : LevelModelsKept ⟨d, none⟩ (.openDB o recovered)) (hs : d.openDB o recovered = some s') :
    LevelInv s' := by
  rw [Disk.openDB] at hs
  split at hs
  · cases hs
  · rename_i next tables _
    simp only at hs
    split_ifs at hs with hload
    obtain rfl := Option.some.inj hs
    refine ⟨fun x hx i hi hi' hlearned hne => ?_, h.saved⟩
    obtain rfl := Option.some.inj hx
    simp only [recoveredVersion_level d recovered hi] at hne ⊢
    have hsome := all_eq_true.1 hload i (mem_range.2 hi')
    simp only [Bool.and_eq_true] at hsome
    obtain ⟨m, hm⟩ := Option.isSome_iff_exists.1 hsome.1
    simp only [hm, Option.getD_some] at hlearned ⊢
    rw [Disk.loadLevel] at hm
    split_ifs at hm with hl
    · obtain ⟨-, -, hfile⟩ := loadModel_spec hm
      obtain ⟨f, hf, htrained⟩ := hfile hlearned
      have hkept := hok (by simpa using (Bool.and_eq_true_iff.1 hl).1) i hi hi' f hf hne
      rw [htrained, h.saved i f hi hi' hf (by rw [hkept]; exact boundaryKeys_ne_nil hne), hkept]
    · obtain rfl := Option.some.inj hm
      exact absurd hlearned Bool.false_ne_true

variable {x : Session} {edit : VersionEdit Bytes}

theorem LevelInv.logAndApply
    (h : LevelInv ⟨d, some x⟩) (hs : x.logAndApply d edit = some s') : LevelInv s' := by
  rw [Session.logAndApply] at hs
  split_ifs at hs with hnew
  obtain rfl := Option.some.inj hs
  refine ⟨fun y hy i hi hi' hlearned hne => ?_, h.saved⟩
  obtain rfl := Option.some.inj hy
  by_cases hch : edit.changes i = true
  · simp only [if_pos (Or.inr hch)] at hlearned
    exact absurd hlearned Bool.false_ne_true
  · have hkeep : ¬ (i = 0 ∨ edit.changes i = true) := by
      rintro (rfl | hc)
      · omega
      · exact hch hc
    have hsame := applyEdit_of_unchanged x.current (Bool.not_eq_true _ ▸ hch)
    simp only [if_neg hkeep, hsame] at hlearned hne ⊢
    exact h.describe x rfl i hi hi' hlearned hne

variable {x' : Session} {level cost : ℕ} {awaiting : ℕ → Bool}

theorem LevelInv.levelLearn {entered idle : Bool} (h : LevelInv ⟨d, some x⟩)
    (hok : LevelModelsKept ⟨d, some x⟩ (.levelLearn level entered idle awaiting cost))
    (hs : x.levelLearn level entered idle awaiting cost = some x') : LevelInv ⟨d, some x'⟩ := by
  have hlevel : level < kNumLevels := by
    by_contra hge
    rw [Session.levelLearn, if_neg hge] at hs
    cases hs
  rw [Session.levelLearn, if_pos hlevel] at hs
  obtain ⟨m, hm, rfl⟩ := Option.map_eq_some_iff.1 hs
  refine ⟨fun y hy i hi hi' hlearned hne => ?_, h.saved⟩
  obtain rfl := Option.some.inj hy
  by_cases hil : i = level
  · subst hil
    simp only [update_self] at hlearned ⊢
    obtain ⟨hl, ht, hfill⟩ := x.fillLevelModel_spec i entered idle
    have hold : (x.level_models i).data.learned = true →
        (x.level_models i).trained_on = boundaryKeys (x.current i) :=
      fun hl => h.describe x rfl i hi hi' hl hne
    split_ifs at hm with htrain
    · obtain ⟨he, hid, -, hkeys⟩ := hfill htrain
      obtain ⟨-, -, hspec⟩ := TrackedModel.learn_spec hm
      rw [hok x rfl hi he hid hne, nil_append] at hkeys
      rcases hspec hlearned with hnow | ⟨hbefore, hsame⟩
      · rw [hnow, hkeys]
      · rw [hsame, ht]
        exact hold (hl ▸ hbefore)
    · obtain rfl := Option.some.inj hm
      rw [ht]
      exact hold (hl ▸ hlearned)
  · simp only [update_of_ne hil] at hlearned ⊢
    exact h.describe x rfl i hi hi' hlearned hne

theorem LevelInv.close (h : LevelInv ⟨d, some x⟩) (fresh_write : Bool)
    (g : BlockGeometry) : LevelInv ⟨x.close d fresh_write g, none⟩ := by
  refine ⟨fun y hy => (by cases hy), fun i f hi hi' hf hne => ?_⟩
  rw [Session.close] at hf
  split_ifs at hf with hfresh
  · simp only [if_pos hi', saveModel, writeModel] at hf
    by_cases hl : (x.level_models i).data.learned = true
    · simp only [hl, Bool.not_true, Bool.false_eq_true, if_false, Option.some.injEq] at hf
      subst hf
      refine h.describe x rfl i hi hi' hl fun hnil => hne ?_
      simp only [hnil]
      rfl
    · simp only [Bool.not_eq_true _ ▸ hl, Bool.not_false, if_true] at hf
      exact h.saved i f hi hi' hf hne
  · exact h.saved i f hi hi' hf hne

variable {s : StoreState} {a : StoreAction}

theorem LevelInv.step (h : LevelInv s)
    (hok : LevelModelsKept s a) (hs : storeStep s a = some s') : LevelInv s' := by
  obtain ⟨d, session⟩ := s
  cases session with
  | none =>
    cases a with
    | openDB o recovered => exact h.openDB hok hs
    | destroyDB =>
      obtain rfl := Option.some.inj hs
      exact ⟨fun x hx => (by cases hx), h.saved⟩
    | _ => cases hs
  | some x =>
    cases a with
    | newFileNumber | buildTable _ | deleteObsoleteFiles _ =>
      obtain rfl := Option.some.inj hs
      exact ⟨fun y hy => by obtain rfl := Option.some.inj hy; exact h.describe x rfl, h.saved⟩
    | logAndApply edit => exact h.logAndApply hs
    | levelLearn level entered idle awaiting cost =>
      obtain ⟨x', hx', rfl⟩ := Option.map_eq_some_iff.1 hs
      exact h.levelLearn hok hx'
    | fileLearn number level awaiting cost =>
      obtain ⟨x', hx', rfl⟩ := storeStep_fileLearn hs
      obtain ⟨-, m, rfl⟩ := Session.fileLearn_frame hx'
      refine ⟨fun y hy => ?_, h.saved⟩
      obtain rfl := Option.some.inj hy
      exact h.describe x rfl
    | closeDB fresh_write g =>
      obtain rfl := Option.some.inj hs
      exact h.close fresh_write g
    | openDB _ _ | destroyDB => cases hs

theorem levelInv_init : LevelInv StoreState.init :=
  ⟨fun x hx => (by cases hx), fun i f _ _ hf => (by cases hf)⟩

/-- **Level models describe the level they are attached to**, in every run in which every loaded
model file belongs to a level that has not changed since, and no training starts with keys left
over. -/
theorem levelModelsDescribe_of_run (actions : List StoreAction) (s : StoreState)
    (hok : Steps.Meets storeStep LevelModelsKept StoreState.init actions)
    (hrun : Steps.run storeStep StoreState.init actions = some s) : LevelModelsDescribe s :=
  (Steps.invariant (fun _ _ _ => LevelInv.step) levelInv_init hok hrun).describe

namespace StaleLevelModel

/-- Level models are loaded, file models are not. -/
def options : ModelOptions := ⟨1, 1, true, false⟩

/-- A flush of a table with two keys to level 2. -/
def flush (number seq : ℕ) (a b : UInt8) : List StoreAction :=
  [.buildTable [encodeEntries [(⟨[a], seq, .value⟩, []), (⟨[b], seq + 1, .value⟩, [])]],
    .logAndApply ⟨[], [(2, ⟨number, 200, ⟨[a], seq, .value⟩, ⟨[b], seq + 1, .value⟩⟩)]⟩]

/-- A session that trains the model of level 2. -/
def learnSession : List StoreAction :=
  .openDB options [] :: flush 4 1 49 51 ++ [.levelLearn 2 true true (fun _ => false) 0]

/-- The model is written, a session without `fresh_write` adds a file to the level, and the next
session loads the model. -/
def staleRun : List StoreAction :=
  learnSession ++ .closeDB true ⟨2, 100, 50, true⟩ :: .openDB options [] :: flush 7 3 53 56 ++
    [.closeDB false ⟨2, 100, 50, true⟩, .openDB options []]

/-- The model of level 2 and the keys of the level. -/
def observe (s : StoreState) : Option (Bool × List Bytes × List Bytes) :=
  s.session.map fun x => ((x.level_models 2).data.learned, (x.level_models 2).trained_on,
    boundaryKeys (x.current 2))

end StaleLevelModel

open StaleLevelModel in
/-- The first session trains the model and writes it, the second one loads it for the same level. -/
theorem levelModelsDescribe_of_run_two_sessions :
    let actions := learnSession ++ [.closeDB true ⟨2, 100, 50, true⟩, .openDB options []]
    ∃ s, Steps.run storeStep StoreState.init actions = some s ∧
      observe s = some (true, [[49], [51]], [[49], [51]]) ∧ LevelModelsDescribe s := by
  intro actions
  have h : (Steps.run storeStep StoreState.init actions).bind observe =
      some (true, [[49], [51]], [[49], [51]]) := by decide +kernel
  have hok : Steps.Meets storeStep LevelModelsKept StoreState.init actions := by decide +kernel
  obtain ⟨s, hs, hobs⟩ := Option.bind_eq_some_iff.1 h
  exact ⟨s, hs, hobs, levelModelsDescribe_of_run actions s hok hs⟩

open StaleLevelModel in
/-- **A session without `fresh_write` makes a level model wrong.** -/
theorem levelModel_stale_after_session :
    ∃ s, Steps.run storeStep StoreState.init staleRun = some s ∧ ¬ LevelModelsDescribe s := by
  have h : (Steps.run storeStep StoreState.init staleRun).bind observe =
      some (true, [[49], [51]], [[49], [51], [53], [56]]) := by decide +kernel
  obtain ⟨s, hs, hobs⟩ := Option.bind_eq_some_iff.1 h
  obtain ⟨x, hx, hval⟩ := Option.map_eq_some_iff.1 hobs
  simp only [Prod.mk.injEq] at hval
  obtain ⟨hlearned, htrained, hkeys⟩ := hval
  have hne : x.current 2 ≠ [] := by
    intro hnil
    rw [hnil] at hkeys
    cases hkeys
  refine ⟨s, hs, fun hdesc => ?_⟩
  have := hdesc x hx 2 (by decide) (by decide) hlearned hne
  rw [htrained, hkeys] at this
  exact absurd this (by decide)

/-! ### File models -/

/-- Learned file models of live files were trained on the user keys of the file. -/
def FileModelsDescribe (s : StoreState) : Prop :=
  ∀ x, s.session = some x → ∀ n, isLive x.current n = true →
    (x.getModel n).data.learned = true →
      ∃ blocks, s.disk.tables n = some blocks ∧
        (x.getModel n).trained_on = Table.userKeys blocks.flatten

/-- File models that are loaded have been written since the last `DestroyDB`. -/
def FileModelsKept (s : StoreState) : StoreAction → Prop
  | .openDB o recovered => o.load_file_model = true →
      ∀ n f, isLive (s.disk.recoveredVersion recovered) n = true → s.disk.fmodels n = some f →
        f.epoch = s.disk.epoch
  | _ => True

/-- A file model against the table file with its number. -/
structure FitsTable (m : TrackedModel) (table : Option TableBlocks) : Prop where
  empty : m.data.filled = false → m.data.string_keys = []
  filled : ∀ blocks, table = some blocks → m.data.filled = true →
    m.data.string_keys = Table.userKeys blocks.flatten
  learned : ∀ blocks, table = some blocks → m.data.learned = true →
    m.trained_on = Table.userKeys blocks.flatten

/-- The invariant of such runs. -/
structure FileInv (s : StoreState) : Prop where
  /-- Files of the version exist, and their numbers have been used. -/
  stored : ∀ v k, s.disk.manifest = some (v, k) → ∀ n, isLive v n = true →
    n < k ∧ (s.disk.tables n).isSome
  manifest : ∀ x, s.session = some x → ∃ k ≤ x.next_file_number,
    s.disk.manifest = some (x.current, k)
  pending : ∀ x, s.session = some x → ∀ n ∈ x.pending_outputs,
    n < x.next_file_number ∧ (s.disk.tables n).isSome
  models : ∀ x, s.session = some x → ∀ n m, x.file_models n = some m →
    n < x.next_file_number ∧ FitsTable m (s.disk.tables n)
  saved : ∀ n f, s.disk.fmodels n = some f → f.epoch ≤ s.disk.epoch ∧
    (f.epoch = s.disk.epoch → ∃ v k, s.disk.manifest = some (v, k) ∧ n < k ∧
      ∀ blocks, s.disk.tables n = some blocks → f.trained_on = Table.userKeys blocks.flatten)

variable {m : TrackedModel}

theorem FitsTable.mono {table table' : Option TableBlocks}
    (h : FitsTable m table) (hle : ∀ blocks, table' = some blocks → table = some blocks) :
    FitsTable m table' :=
  ⟨h.empty, fun b hb => h.filled b (hle b hb), fun b hb => h.learned b (hle b hb)⟩

theorem fitsTable_new (o : ModelOptions) (table : Option TableBlocks) :
    FitsTable (o.newModel false) table :=
  ⟨fun _ => rfl, fun _ _ h => absurd h Bool.false_ne_true,
    fun _ _ h => absurd h Bool.false_ne_true⟩

theorem FileInv.getModel (h : FileInv ⟨d, some x⟩) (n : ℕ) :
    FitsTable (x.getModel n) (d.tables n) := by
  rw [Session.getModel]
  cases hm : x.file_models n with
  | none => exact fitsTable_new _ _
  | some m => exact (h.models x rfl n m hm).2

theorem FileInv.describe (h : FileInv s) : FileModelsDescribe s := by
  obtain ⟨d, session⟩ := s
  intro x hx n hlive hlearned
  obtain rfl : session = some x := hx
  obtain ⟨k, -, hk⟩ := h.manifest x rfl
  obtain ⟨blocks, hblocks⟩ := Option.isSome_iff_exists.1 (h.stored _ _ hk n hlive).2
  exact ⟨blocks, hblocks, (h.getModel n).learned blocks hblocks hlearned⟩

theorem FileInv.openDB (h : FileInv ⟨d, none⟩)
    (hok : FileModelsKept ⟨d, none⟩ (.openDB o recovered)) (hs : d.openDB o recovered = some s') :
    FileInv s' := by
  rw [Disk.openDB] at hs
  split at hs
  · cases hs
  rename_i next tables htables
  simp only at hs
  split_ifs at hs with hload
  obtain rfl := Option.some.inj hs
  obtain ⟨hnext, hold, hkeep, hnew⟩ := recoverTables_spec htables
  -- files of the recovered version
  have hlive : ∀ n, isLive (d.recoveredVersion recovered) n = true →
      n < next + 1 ∧ (tables n).isSome := by
    intro n hn
    rcases isLive_applyEdit hn with hn | ⟨p, hp, rfl⟩
    · cases hman : d.manifest with
      | none =>
        rw [Disk.recover, hman, isLive_iff] at hn
        obtain ⟨level, -, f, hf, -⟩ := hn
        exact absurd hf not_mem_nil
      | some vk =>
        rw [Disk.recover, hman, Option.getD_some] at hn hnext
        obtain ⟨hlt, hsome⟩ := h.stored vk.1 vk.2 hman n hn
        exact ⟨by omega, hkeep n hsome⟩
    · obtain ⟨r, hr, rfl⟩ := mem_map.1 hp
      obtain ⟨-, hlt, hsome⟩ := hnew r hr
      exact ⟨Nat.lt_succ_of_lt hlt, hsome⟩
  have hsaved : ∀ n f, d.fmodels n = some f → f.epoch = d.epoch → n < next + 1 ∧
      ∀ blocks, tables n = some blocks → f.trained_on = Table.userKeys blocks.flatten := by
    intro n f hf he
    obtain ⟨v, k, hman, hlt, hkeys⟩ := (h.saved n f hf).2 he
    rw [Disk.recover, hman, Option.getD_some] at hnext hold
    exact ⟨by omega, fun blocks hb => hkeys blocks (hold n (by omega) ▸ hb)⟩
  refine ⟨fun v k hvk n hn => ?_, fun x hx => ?_, fun x hx n hn => ?_, fun x hx n m hm => ?_,
    fun n f hf => ⟨(h.saved n f hf).1, fun he => ?_⟩⟩
  · simp only [Disk.deleteObsoleteFiles, Option.some.injEq, Prod.mk.injEq] at hvk
    obtain ⟨rfl, rfl⟩ := hvk
    simp only [Disk.deleteObsoleteFiles, hn, Bool.true_or, if_true]
    exact hlive n hn
  · obtain rfl := Option.some.inj hx
    exact ⟨next + 1, le_rfl, rfl⟩
  · obtain rfl := Option.some.inj hx
    exact absurd hn not_mem_nil
  · obtain rfl := Option.some.inj hx
    simp only at hm
    split_ifs at hm with hn
    refine ⟨(hlive n hn).1, ?_⟩
    simp only [Disk.deleteObsoleteFiles, hn, Bool.true_or, if_true]
    rw [Disk.loadFile] at hm
    split_ifs at hm with hl
    · obtain ⟨hfilled, hkeys, hlearned⟩ := loadModel_spec hm
      refine ⟨fun _ => hkeys, fun _ _ hf => ?_, fun blocks hb hlm => ?_⟩
      · rw [hfilled] at hf
        exact absurd hf Bool.false_ne_true
      · obtain ⟨f, hf, htrained⟩ := hlearned hlm
        rw [htrained]
        exact (hsaved n f hf (hok hl n f hn hf)).2 blocks hb
    · obtain rfl := Option.some.inj hm
      exact fitsTable_new o _
  · obtain ⟨hlt, hkeys⟩ := hsaved n f hf he
    refine ⟨_, _, rfl, hlt, fun blocks hb => hkeys blocks ?_⟩
    simp only [Disk.deleteObsoleteFiles] at hb
    split_ifs at hb
    exact hb

/-- **Table files come and go**: files with numbers in use are not overwritten, and those that the
version or `pending_outputs` names stay. -/
theorem FileInv.tables (h : FileInv ⟨d, some x⟩) {tables : ℕ → Option TableBlocks} {next : ℕ}
    {pending : List ℕ} (hnext : x.next_file_number ≤ next)
    (hsub : ∀ n < x.next_file_number, ∀ b, tables n = some b → d.tables n = some b)
    (hkept : ∀ n < x.next_file_number, isLive x.current n = true ∨ n ∈ x.pending_outputs →
      (d.tables n).isSome → (tables n).isSome)
    (hpending : ∀ n ∈ pending, n ∈ x.pending_outputs ∨ n < next ∧ (tables n).isSome) :
    FileInv ⟨{ d with tables := tables },
      some { x with next_file_number := next, pending_outputs := pending }⟩ := by
  obtain ⟨k, hk, hman⟩ := h.manifest x rfl
  refine ⟨fun v k' hvk n hn => ?_, fun y hy => ?_, fun y hy n hn => ?_, fun y hy n m hm => ?_,
    fun n f hf => ⟨(h.saved n f hf).1, fun he => ?_⟩⟩
  · obtain ⟨rfl, rfl⟩ : (x.current, k) = (v, k') := Option.some.inj (hman.symm.trans hvk)
    obtain ⟨hlt, hsome⟩ := h.stored _ _ hman n hn
    exact ⟨hlt, hkept n (by omega) (Or.inl hn) hsome⟩
  · obtain rfl := Option.some.inj hy
    exact ⟨k, hk.trans hnext, hman⟩
  · obtain rfl := Option.some.inj hy
    rcases hpending n hn with hold | hnew
    · obtain ⟨hlt, hsome⟩ := h.pending x rfl n hold
      exact ⟨hlt.trans_le hnext, hkept n hlt (Or.inr hold) hsome⟩
    · exact hnew
  · obtain rfl := Option.some.inj hy
    obtain ⟨hlt, hfits⟩ := h.models x rfl n m hm
    exact ⟨hlt.trans_le hnext, hfits.mono (hsub n hlt)⟩
  · obtain ⟨v, k', hvk, hlt, hkeys⟩ := (h.saved n f hf).2 he
    obtain ⟨rfl, rfl⟩ : (x.current, k) = (v, k') := Option.some.inj (hman.symm.trans hvk)
    exact ⟨_, _, hvk, hlt, fun b hb => hkeys b (hsub n (by omega) b hb)⟩

theorem FileInv.buildTable (h : FileInv ⟨d, some x⟩)
    (blocks : TableBlocks) :
    FileInv ⟨{ d with tables := update d.tables x.next_file_number (some blocks) },
      some { x with
        next_file_number := x.next_file_number + 1
        pending_outputs := x.next_file_number :: x.pending_outputs }⟩ := by
  have hold : ∀ n < x.next_file_number,
      update d.tables x.next_file_number (some blocks) n = d.tables n :=
    fun n hn => update_of_ne (by omega) _ _
  refine h.tables (Nat.le_succ _) (fun n hn b hb => (hold n hn).symm.trans hb)
    (fun n hn _ hsome => ?_) fun n hn => ?_
  · rw [hold n hn]
    exact hsome
  · rcases mem_cons.1 hn with rfl | hn
    · refine Or.inr ⟨Nat.lt_succ_self _, ?_⟩
      rw [update_self, Option.isSome_some]
    · exact Or.inl hn

theorem FileInv.logAndApply
    (h : FileInv ⟨d, some x⟩) (hs : x.logAndApply d edit = some s') : FileInv s' := by
  rw [Session.logAndApply] at hs
  split_ifs at hs with hnew
  obtain rfl := Option.some.inj hs
  obtain ⟨k, hk, hman⟩ := h.manifest x rfl
  refine ⟨fun v k' hvk n hn => ?_, fun y hy => ?_, fun y hy => ?_, fun y hy => ?_,
    fun n f hf => ⟨(h.saved n f hf).1, fun he => ?_⟩⟩
  · simp only [Option.some.injEq, Prod.mk.injEq] at hvk
    obtain ⟨rfl, rfl⟩ := hvk
    have hold : isLive x.current n = true → n < x.next_file_number ∧ (d.tables n).isSome := by
      intro hn
      obtain ⟨hlt, hsome⟩ := h.stored _ _ hman n hn
      exact ⟨by omega, hsome⟩
    rcases isLive_applyEdit hn with hn | ⟨p, hp, rfl⟩
    · exact hold hn
    · have := all_eq_true.1 hnew p hp
      simp only [Bool.and_eq_true, Bool.or_eq_true, contains_iff_mem] at this
      rcases this.2 with hpending | hlive
      · exact h.pending x rfl _ hpending
      · exact hold hlive
  · obtain rfl := Option.some.inj hy
    exact ⟨x.next_file_number, le_rfl, rfl⟩
  · obtain rfl := Option.some.inj hy
    exact h.pending x rfl
  · obtain rfl := Option.some.inj hy
    exact h.models x rfl
  · obtain ⟨v, k', hvk, hlt, hkeys⟩ := (h.saved n f hf).2 he
    obtain ⟨rfl, rfl⟩ : (x.current, k) = (v, k') := Option.some.inj (hman.symm.trans hvk)
    exact ⟨_, _, rfl, by omega, hkeys⟩

theorem FileInv.deleteObsoleteFiles (h : FileInv ⟨d, some x⟩)
    (keep : List ℕ) :
    FileInv ⟨d.deleteObsoleteFiles x.current (x.pending_outputs ++ keep), some x⟩ := by
  refine h.tables le_rfl (fun n _ b hb => ?_) (fun n _ hn hsome => ?_) fun n => Or.inl
  · split_ifs at hb
    exact hb
  · have : (isLive x.current n || (x.pending_outputs ++ keep).contains n) = true := by
      rw [Bool.or_eq_true, contains_iff_mem, mem_append]
      exact hn.imp_right Or.inl
    simp only [if_pos this]
    exact hsome

theorem FitsTable.learn {m' : TrackedModel} {blocks : TableBlocks}
    (h : FitsTable m (some blocks))
    (hl : TrackedModel.learn ⟨fillFile blocks m.data, m.trained_on⟩ awaiting = some m') :
    FitsTable m' (some blocks) := by
  obtain ⟨hfilled, hkeys, hlearned⟩ := fillFile_spec blocks m.data
  obtain ⟨hkeys', hfilled', hlearned'⟩ := TrackedModel.learn_spec hl
  have hall : (fillFile blocks m.data).string_keys = Table.userKeys blocks.flatten := by
    rw [hkeys]
    split_ifs with hf
    · exact h.filled blocks rfl hf
    · rw [h.empty (Bool.not_eq_true _ ▸ hf), nil_append]
  refine ⟨fun hf => ?_, fun b hb _ => ?_, fun b hb hlm => ?_⟩
  · rw [hfilled', hfilled] at hf
    exact absurd hf.symm Bool.false_ne_true
  · obtain rfl := Option.some.inj hb
    rw [hkeys', hall]
  · obtain rfl := Option.some.inj hb
    rcases hlearned' hlm with hnow | ⟨hbefore, hsame⟩
    · rw [hnow, hall]
    · rw [hsame]
      exact h.learned _ rfl (hlearned ▸ hbefore)

theorem FileInv.fileLearn {number : ℕ} (h : FileInv ⟨d, some x⟩)
    (hs : x.fileLearn d number level awaiting cost = some x') : FileInv ⟨d, some x'⟩ := by
  have hfits := h.getModel number
  -- the new object of the file
  have hnew : ∀ m, x'.file_models number = some m → FitsTable m (d.tables number) := by
    intro m hm
    rw [Session.fileLearn] at hs
    split_ifs at hs
    simp only at hs
    split at hs
    · obtain rfl := Option.some.inj hs
      simp only [update_self, Option.some.injEq] at hm
      subst hm
      exact ⟨hfits.empty, hfits.filled, hfits.learned⟩
    · rename_i blocks hblocks
      obtain ⟨m', hm', rfl⟩ := Option.map_eq_some_iff.1 hs
      simp only [update_self, Option.some.injEq] at hm
      subst hm
      rw [hblocks] at hfits ⊢
      have hlevel : FitsTable ⟨{ (x.getModel number).data with level := level },
          (x.getModel number).trained_on⟩ (some blocks) :=
        ⟨hfits.empty, hfits.filled, hfits.learned⟩
      have := hlevel.learn hm'
      exact ⟨this.empty, this.filled, this.learned⟩
  obtain ⟨hnumber, m, rfl⟩ := Session.fileLearn_frame hs
  refine ⟨h.stored, fun y hy => ?_, fun y hy => ?_, fun y hy n m' hm' => ?_, h.saved⟩
  · obtain rfl := Option.some.inj hy
    exact h.manifest x rfl
  · obtain rfl := Option.some.inj hy
    exact h.pending x rfl
  · obtain rfl := Option.some.inj hy
    by_cases hn : n = number
    · subst hn
      exact ⟨hnumber, hnew m' hm'⟩
    · simp only [update_of_ne hn] at hm'
      exact h.models x rfl n m' hm'

theorem FileInv.close (h : FileInv ⟨d, some x⟩) (fresh_write : Bool)
    (g : BlockGeometry) : FileInv ⟨x.close d fresh_write g, none⟩ := by
  obtain ⟨k, hk, hman⟩ := h.manifest x rfl
  cases fresh_write with
  | false =>
    exact ⟨h.stored, fun _ hy => (by cases hy), fun _ hy => (by cases hy),
      fun _ hy => (by cases hy), h.saved⟩
  | true =>
    refine ⟨h.stored, fun _ hy => (by cases hy), fun _ hy => (by cases hy),
      fun _ hy => (by cases hy), fun n f hf => ?_⟩
    simp only [Session.close, if_true] at hf
    by_cases hlive : isLive x.current n = true
    · simp only [if_pos hlive, saveModel, writeModel] at hf
      by_cases hl : (x.getModel n).data.learned = true
      · simp only [hl, Bool.not_true, Bool.false_eq_true, if_false, Option.some.injEq] at hf
        subst hf
        exact ⟨le_rfl, fun _ => ⟨x.current, k, hman, (h.stored _ _ hman n hlive).1,
          fun b hb => (h.getModel n).learned b hb hl⟩⟩
      · simp only [Bool.not_eq_true _ ▸ hl, Bool.not_false, if_true] at hf
        exact h.saved n f hf
    · simp only [if_neg hlive] at hf
      exact h.saved n f hf

theorem FileInv.step (h : FileInv s)
    (hok : FileModelsKept s a) (hs : storeStep s a = some s') : FileInv s' := by
  obtain ⟨d, session⟩ := s
  cases session with
  | none =>
    cases a with
    | openDB o recovered => exact h.openDB hok hs
    | destroyDB =>
      obtain rfl := Option.some.inj hs
      refine ⟨fun _ _ hvk => (by cases hvk), fun _ hx => (by cases hx), fun _ hx => (by cases hx),
        fun _ hx => (by cases hx), fun n f hf => ?_⟩
      -- model files stay, and belong to an earlier database from now on
      have hle : f.epoch ≤ d.epoch := (h.saved n f hf).1
      refine ⟨Nat.le_succ_of_le hle, fun he => ?_⟩
      rw [he] at hle
      exact absurd hle (Nat.not_succ_le_self d.epoch)
    | _ => cases hs
  | some x =>
    cases a with
    | newFileNumber =>
      obtain rfl := Option.some.inj hs
      refine ⟨h.stored, fun y hy => ?_, fun y hy n hn => ?_, fun y hy n m hm => ?_, h.saved⟩
      · obtain rfl := Option.some.inj hy
        obtain ⟨k, hk, hman⟩ := h.manifest x rfl
        exact ⟨k, Nat.le_succ_of_le hk, hman⟩
      · obtain rfl := Option.some.inj hy
        exact (h.pending x rfl n hn).imp_left Nat.lt_succ_of_lt
      · obtain rfl := Option.some.inj hy
        exact (h.models x rfl n m hm).imp_left Nat.lt_succ_of_lt
    | buildTable blocks =>
      obtain rfl := Option.some.inj hs
      exact h.buildTable blocks
    | logAndApply edit => exact h.logAndApply hs
    | deleteObsoleteFiles keep =>
      obtain rfl := Option.some.inj hs
      exact h.deleteObsoleteFiles keep
    | levelLearn level entered idle awaiting cost =>
      obtain ⟨x', hx', rfl⟩ := Option.map_eq_some_iff.1 hs
      obtain ⟨level_models, rfl⟩ := Session.levelLearn_frame hx'
      refine ⟨h.stored, fun y hy => ?_, fun y hy => ?_, fun y hy => ?_, h.saved⟩
      · obtain rfl := Option.some.inj hy
        exact h.manifest x rfl
      · obtain rfl := Option.some.inj hy
        exact h.pending x rfl
      · obtain rfl := Option.some.inj hy
        exact h.models x rfl
    | fileLearn number level awaiting cost =>
      obtain ⟨x', hx', rfl⟩ := storeStep_fileLearn hs
      exact h.fileLearn hx'
    | closeDB fresh_write g =>
      obtain rfl := Option.some.inj hs
      exact h.close fresh_write g
    | openDB _ _ | destroyDB => cases hs

theorem fileInv_init : FileInv StoreState.init :=
  ⟨fun _ _ hvk => (by cases hvk), fun _ hx => (by cases hx), fun _ hx => (by cases hx),
    fun _ hx => (by cases hx), fun _ _ hf => (by cases hf)⟩

/-- **File models describe the file they are attached to**, in every run in which every loaded
model file of a live file has been written since the last `DestroyDB`. -/
theorem fileModelsDescribe_of_run (actions : List StoreAction) (s : StoreState)
    (hok : Steps.Meets storeStep FileModelsKept StoreState.init actions)
    (hrun : Steps.run storeStep StoreState.init actions = some s) : FileModelsDescribe s :=
  (Steps.invariant (fun _ _ _ => FileInv.step) fileInv_init hok hrun).describe

namespace StaleFileModel

open StaleLevelModel (flush)

/-- File models are loaded, level models are not. -/
def options : ModelOptions := ⟨1, 1, false, true⟩

/-- A session that trains the model of file 4 and writes it. -/
def learnSession : List StoreAction :=
  .openDB options [] :: flush 4 1 49 51 ++
    [.fileLearn 4 2 (fun _ => false) 0, .closeDB true ⟨2, 100, 50, true⟩]

/-- The database is deleted, a new one gets another file 4, and the next session loads the model. -/
def staleRun : List StoreAction :=
  learnSession ++ [.destroyDB, .openDB options []] ++ flush 4 1 53 56 ++
    [.closeDB false ⟨2, 100, 50, true⟩, .openDB options []]

/-- Whether file 4 is live and its model learned, and the keys of both. -/
def observe (s : StoreState) : Option (Bool × Bool × List Bytes × List Bytes) :=
  s.session.map fun x => (isLive x.current 4, (x.getModel 4).data.learned,
    (x.getModel 4).trained_on, Table.userKeys ((s.disk.tables 4).getD []).flatten)

end StaleFileModel

open StaleFileModel in
/-- The condition holds if the database is opened again at once, and the loaded model describes
its file. -/
theorem fileModelsDescribe_of_run_two_sessions :
    ∃ s, Steps.run storeStep StoreState.init (learnSession ++ [.openDB options []]) = some s ∧
      observe s = some (true, true, [[49], [51]], [[49], [51]]) ∧ FileModelsDescribe s := by
  have h : (Steps.run storeStep StoreState.init (learnSession ++ [.openDB options []])).bind
      observe = some (true, true, [[49], [51]], [[49], [51]]) := by decide +kernel
  obtain ⟨s, hs, hobs⟩ := Option.bind_eq_some_iff.1 h
  refine ⟨s, hs, hobs, fileModelsDescribe_of_run _ _ ?_ hs⟩
  refine ⟨fun _ n f _ hf => (by cases hf), fun s₁ h₁ => ⟨trivial, fun s₂ h₂ => ⟨trivial,
    fun s₃ h₃ => ⟨trivial, fun s₄ h₄ => ⟨trivial, fun s₅ h₅ => ⟨?_, fun _ _ => trivial⟩⟩⟩⟩⟩⟩
  obtain rfl := Option.some.inj h₁
  obtain rfl := Option.some.inj h₂
  obtain rfl := Option.some.inj h₃
  obtain ⟨x, -, rfl⟩ := storeStep_fileLearn h₄
  obtain rfl := Option.some.inj h₅
  -- every model file has been written by the first session
  intro _ n f _ hf
  simp only [Session.close, if_true] at hf
  split_ifs at hf with hlive
  · rw [saveModel] at hf
    split at hf
    · cases hf
    · obtain rfl := Option.some.inj hf
      rfl
  · cases hf

open StaleFileModel in
/-- **A model file of a deleted database is loaded for a new file.** -/
theorem fileModel_stale_after_destroy :
    ∃ s, Steps.run storeStep StoreState.init staleRun = some s ∧ ¬ FileModelsDescribe s := by
  have h : (Steps.run storeStep StoreState.init staleRun).bind observe =
      some (true, true, [[49], [51]], [[53], [56]]) := by decide +kernel
  obtain ⟨s, hs, hobs⟩ := Option.bind_eq_some_iff.1 h
  obtain ⟨x, hx, hval⟩ := Option.map_eq_some_iff.1 hobs
  simp only [Prod.mk.injEq] at hval
  obtain ⟨hlive, hlearned, htrained, hkeys⟩ := hval
  refine ⟨s, hs, fun hdesc => ?_⟩
  obtain ⟨blocks, hblocks, hsame⟩ := hdesc x hx 4 hlive hlearned
  rw [hblocks, Option.getD_some, ← hsame, htrained] at hkeys
  exact absurd hkeys (by decide)

end Bourbon
