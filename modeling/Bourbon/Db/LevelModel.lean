import Bourbon.Db.FileMetaData
import Bourbon.Mod.LearnedIndex

/-!
# Level models

In the mode `MOD == 9`, `Version::Get` asks the model of a level which file to read.  The model is
trained on the boundary keys of the files (`Version::FillLevel`): position `2 * j` is the smallest
key of file `j`, position `2 * j + 1` its largest key.  Segments start at even positions, so the
two keys of a file lie on one segment and every key between them is predicted between them.

* `Fitted.level_contains` : the interval of a key inside file `j` contains `j`;
* `modelBranch_eq_findFileBranch` : the model and the binary search choose the same file.
-/

namespace Bourbon

open Decimal LearnedIndexData

/-- The keys a level model is trained on. -/
def boundaryKeys (files : List (FileMetaData Bytes)) : List Bytes :=
  files.flatMap fun file => [file.smallest.user_key, file.largest.user_key]

theorem boundaryKeys_ne_nil {files : List (FileMetaData Bytes)} (h : files ≠ []) :
    boundaryKeys files ≠ [] := by
  obtain ⟨f, rest, rfl⟩ := List.exists_cons_of_ne_nil h
  exact List.cons_ne_nil _ _

/-- `Version::FillLevel`; the keys are added to those already collected. -/
def fillLevel (files : List (FileMetaData Bytes)) (data : LearnedIndexData) :
    LearnedIndexData × Bool :=
  if files = [] then (data, false)
  else ({ data with string_keys := data.string_keys ++ boundaryKeys files }, true)

/-- The loop of `Version::Get` over the predicted files, from index `i` on. -/
def modelBranchLoop (files : List (FileMetaData Bytes)) (user_key : Bytes) (second : ℕ) :
    ℕ → ℕ → Option ℕ
  | 0, _ => none
  | fuel + 1, i =>
    if i ≤ second then
      match files[i]? with
      | none => none
      | some file =>
        if file.smallest.user_key ≤ user_key ∧ file.largest.user_key ≥ user_key then some i
        else modelBranchLoop files user_key second fuel (i + 1)
    else none

/-- The choice of the file to read by the level model: the index of the file. -/
def modelBranch (files : List (FileMetaData Bytes)) (learned_this_level : LearnedIndexData)
    (user_key : Bytes) : Option (Option ℕ) :=
  match learned_this_level.getPosition user_key with
  | none => none
  | some (first, second) =>
    if first ≤ learned_this_level.maxPosition then
      some (modelBranchLoop files user_key second (files.length + 1) first)
    else some none

/-! ### Predictions inside a file -/

namespace LearnedIndexData

theorem selects_unique {segs : List Segment} {t : ℕ} {s s' : Segment}
    (hs : segs.Pairwise fun a b => a.x < b.x) (h : Selects segs t s) (h' : Selects segs t s') :
    s = s' :=
  (bracket_selects (d := ⟨0, 0, 0⟩) hs h).symm.trans (bracket_selects hs h')

variable {m : LearnedIndexData} {v : ℕ → ℕ} {n j : ℕ}

theorem Fitted.selects_file (h : m.Fitted v n) (hlevel : m.is_level = true) {segs : List Segment}
    (ht : Trained v m.error (!m.is_level) n segs) (hj : 2 * j + 1 < n) {s : Segment} {t : ℕ}
    (hs : Selects segs (v (2 * j)) s) (h0 : v (2 * j) ≤ t) (h1 : t ≤ v (2 * j + 1)) :
    Selects segs t s := by
  obtain ⟨l, r, heq, hx, hr⟩ := hs
  refine ⟨l, r, heq, hx.trans h0, fun s' hs' => ?_⟩
  obtain ⟨i, hi, hix, heven⟩ := ht.starts s' (by rw [heq]; simp [hs'])
  have heven := heven (by rw [hlevel]; rfl)
  have hlt := hr s' hs'
  rw [hix] at hlt ⊢
  -- the segment starts at an even position behind `2 * j`, hence behind `2 * j + 1`
  have hij : 2 * j + 1 < i := by
    by_contra hle
    rcases Nat.lt_or_ge i (2 * j) with hc | hc
    · exact absurd (h.mono i (2 * j) hc (by omega)) (by omega)
    · obtain rfl : i = 2 * j := by omega
      exact absurd hlt (lt_irrefl _)
  exact h1.trans_lt (h.mono _ _ hij hi)

/-- **A level model predicts the file of every key inside the file.** -/
theorem Fitted.level_contains (h : m.Fitted v n) (hlevel : m.is_level = true) (he : 1 ≤ m.error)
    (hj : 2 * j + 1 < n) {key : Bytes} (h0 : v (2 * j) ≤ sliceToInteger key)
    (h1 : sliceToInteger key ≤ v (2 * j + 1)) :
    ∃ lower upper, m.getPosition key = some (lower, upper) ∧ lower ≤ j ∧ j ≤ upper := by
  obtain ⟨segs, hsegs, ht⟩ := h.segments
  obtain ⟨s, hs, hlow⟩ := ht.covers (2 * j) (by omega)
  obtain ⟨s', hs', hhigh⟩ := ht.covers (2 * j + 1) hj
  have hle : v (2 * j) ≤ v (2 * j + 1) := h0.trans h1
  obtain rfl : s = s' := selects_unique ht.sorted (h.selects_file hlevel ht hj hs hle le_rfl) hs'
  have hsel := h.selects_file hlevel ht hj hs h0 h1
  have hmono : ∀ a b, a ≤ b → b < n → v a ≤ v b := fun a b hab hb =>
    hab.eq_or_lt.elim (fun he => he ▸ le_rfl) fun hlt => (h.mono a b hlt hb).le
  rw [h.getPosition_eq hsegs ht ((hmono 0 _ (by omega) (by omega)).trans h0)
    (h1.trans (hmono _ _ (by omega) (by omega))) hsel]
  -- the prediction lies between those of the two keys of the file
  obtain ⟨hk, -⟩ := ht.rises s hs.mem
  have hmon : ∀ a b : ℕ, a ≤ b → s.eval a ≤ s.eval b := by
    intro a b hab
    have := mul_le_mul_of_nonneg_right (show (a : ℚ) ≤ b by exact_mod_cast hab) hk
    simp only [Segment.eval]; linarith
  have hlo := hmon _ _ h0
  have hhi := hmon _ _ h1
  have hp : j < m.size := by rw [h.size]; omega
  have key : m.predicted s (sliceToInteger key) - m.error < j + 1 ∧
      (j : ℚ) - 1 < m.predicted s (sliceToInteger key) + m.error := by
    rw [abs_le] at hlow hhigh
    push_cast at hlow hhigh
    rw [predicted, if_pos hlevel]
    constructor <;> linarith [hlow.1, hhigh.2]
  obtain ⟨lower, upper, heq, h3, h4, -⟩ := (interval_contains_iff hp).2 key
  exact ⟨lower, upper, heq, h3, h4⟩

end LearnedIndexData

/-! ### Boundary keys -/

variable {files : List (FileMetaData Bytes)} {u : Bytes} {j : ℕ} {f : FileMetaData Bytes}

theorem length_boundaryKeys (files : List (FileMetaData Bytes)) :
    (boundaryKeys files).length = 2 * files.length := by
  induction files with
  | nil => rfl
  | cons f files ih => simp only [boundaryKeys, List.flatMap_cons, List.length_append,
      List.length_cons] at ih ⊢; rw [ih]; simp; omega

theorem boundaryKeys_getD (hf : files[j]? = some f) :
    (boundaryKeys files).getD (2 * j) [] = f.smallest.user_key ∧
      (boundaryKeys files).getD (2 * j + 1) [] = f.largest.user_key := by
  induction files generalizing j with
  | nil => simp at hf
  | cons g files ih =>
    cases j with
    | zero =>
      simp only [List.getElem?_cons_zero, Option.some.injEq] at hf
      subst hf
      exact ⟨rfl, rfl⟩
    | succ j =>
      simp only [List.getElem?_cons_succ] at hf
      exact ih hf

/-- The boundary keys are decimal keys of one length, with values below `2^63`. -/
def DecimalBounds (len : ℕ) (files : List (FileMetaData Bytes)) : Prop :=
  ∀ f ∈ files, (IsKey len f.smallest.user_key ∧ value f.smallest.user_key < 2 ^ 63) ∧
    IsKey len f.largest.user_key ∧ value f.largest.user_key < 2 ^ 63

theorem keyList_boundaryKeys {len : ℕ} (hd : DecimalBounds len files) (h : DistinctBounds files) :
    KeyList (boundaryKeys files) := by
  have hmem : ∀ k ∈ boundaryKeys files, IsKey len k ∧ value k < 2 ^ 63 := by
    intro k hk
    obtain ⟨f, hf, hk⟩ := List.mem_flatMap.1 hk
    simp only [List.mem_cons, List.not_mem_nil, or_false] at hk
    rcases hk with rfl | rfl
    · exact (hd f hf).1
    · exact (hd f hf).2
  have hsorted : (boundaryKeys files).Pairwise (· < ·) := by
    rw [boundaryKeys, List.pairwise_flatMap]
    refine ⟨fun f hf => by simpa using h.inside f hf, ?_⟩
    refine h.between.imp_of_mem fun {f g} hf hg hfg => ?_
    have h1 := h.inside f hf
    have h2 := h.inside g hg
    simp only [List.mem_cons, List.not_mem_nil, or_false, forall_eq_or_imp, forall_eq]
    exact ⟨⟨h1.trans hfg, h1.trans (hfg.trans h2)⟩, hfg, hfg.trans h2⟩
  refine ⟨fun k hk => ⟨(hmem k hk).1.1, (hmem k hk).2⟩, ?_⟩
  exact hsorted.imp_of_mem fun ha hb hlt => ((hmem _ ha).1.lt_iff (hmem _ hb).1).1 hlt

/-! ### The choice of the file -/

theorem modelBranchLoop_holds {second fuel i k : ℕ}
    (h : modelBranchLoop files u second fuel i = some k) :
    ∃ f, files[k]? = some f ∧ f.Holds u := by
  induction fuel generalizing i with
  | zero => simp [modelBranchLoop] at h
  | succ fuel ih =>
    rw [modelBranchLoop] at h
    split_ifs at h with hi
    cases hf : files[i]? with
    | none => simp [hf] at h
    | some f =>
      simp only [hf] at h
      split_ifs at h with hin
      · cases h; exact ⟨f, hf, hin⟩
      · exact ih h

theorem modelBranchLoop_eq (hd : DistinctBounds files) {second fuel i : ℕ}
    (hf : files[j]? = some f) (hu : f.Holds u) (hij : i ≤ j) (hj : j ≤ second)
    (hfuel : j - i < fuel) : modelBranchLoop files u second fuel i = some j := by
  induction fuel generalizing i with
  | zero => omega
  | succ fuel ih =>
    have hlen : i < files.length := hij.trans_lt (List.getElem?_eq_some_iff.1 hf).1
    have hi := List.getElem?_eq_getElem hlen
    rw [modelBranchLoop, if_pos (hij.trans hj), hi]
    simp only
    split_ifs with hin
    · rw [hd.unique hi hf hin hu]
    · have hne : i ≠ j := by
        rintro rfl
        rw [hi] at hf
        cases hf
        exact hin hu
      exact ih (by omega) (by omega)

/-- **The level model and the binary search choose the same file** of a level on which the model
was trained. -/
theorem modelBranch_eq_findFileBranch (files : List (FileMetaData Bytes))
    (m m' : LearnedIndexData) (awaiting : ℕ → Bool) (e len : ℕ) (he : 1 ≤ e)
    (herror : m.error = e) (hlevel : m.is_level = true) (hempty : m.string_keys = [])
    (hdec : DecimalBounds len files) (hdist : DistinctBounds files)
    (hlearn : (fillLevel files m).1.learn awaiting = some (m', true)) (u : Bytes)
    (hu : IsKey len u) (s : ℕ) (hs : ∀ f ∈ files, f.largest.sequence ≤ s) :
    modelBranch files m' u = some (findFileBranch files u (lookupKey u s)) := by
  have hne : files ≠ [] := by
    rintro rfl
    simp [fillLevel, learn, hempty] at hlearn
  have hfill : (fillLevel files m).1.string_keys = boundaryKeys files := by
    rw [fillLevel, if_neg hne, hempty]; rfl
  have hfill' : (fillLevel files m).1.error = m.error ∧
      (fillLevel files m).1.is_level = m.is_level := by
    rw [fillLevel, if_neg hne]; exact ⟨rfl, rfl⟩
  have hkeys := keyList_boundaryKeys hdec hdist
  have he' : (1 : ℚ) ≤ (fillLevel files m).1.error := by
    rw [hfill'.1, herror]; exact_mod_cast he
  obtain ⟨hfit, -, herr, hlev, -⟩ := fitted_of_learn (by rw [hfill]; exact hkeys)
    (by linarith) hlearn
  rw [hfill] at hfit
  rw [hfill'.2, hlevel] at hlev
  rw [← herr] at he'
  obtain ⟨first, second, hpos, -⟩ := hfit.getPosition_defined (by linarith) u
  rw [modelBranch, hpos]
  simp only
  rw [← apply_ite some]
  congr 1
  -- compare the two choices file by file
  have hmax : m'.maxPosition = m'.size - 1 := by
    have h1 := hkeys.length_le
    have h2 := hfit.pos
    rw [maxPosition, hfit.size]
    omega
  ext k
  rw [hdist.findFileBranch_iff hs]
  constructor
  · intro hk
    split_ifs at hk
    exact modelBranchLoop_holds hk
  · rintro ⟨f, hf, hfu⟩
    obtain ⟨hsmall, hlarge⟩ := boundaryKeys_getD hf
    obtain ⟨hfs, hfl⟩ := hdec f (List.mem_of_getElem? hf)
    have hlen : k < files.length := (List.getElem?_eq_some_iff.1 hf).1
    have hval : sliceToInteger u = value u := by
      have hle := (hu.le_iff hfl.1).1 hfu.2
      rw [sliceToInteger_eq hu.1.2, Nat.mod_eq_of_lt (by omega)]
    have hk : 2 * k + 1 < (boundaryKeys files).length := by rw [length_boundaryKeys]; omega
    obtain ⟨lower, upper, hpos', hlo, hup⟩ := hfit.level_contains hlev he' hk
      (by rw [hval, keyValue, hsmall]; exact (hfs.1.le_iff hu).1 hfu.1)
      (by rw [hval, keyValue, hlarge]; exact (hu.le_iff hfl.1).1 hfu.2)
    rw [hpos, Option.some.injEq, Prod.mk.injEq] at hpos'
    obtain ⟨rfl, rfl⟩ := hpos'
    rw [if_pos]
    · exact modelBranchLoop_eq hdist hf hfu hlo hup (by omega)
    · rw [hmax, hfit.size, length_boundaryKeys]; omega

/-- A level of two files, `1..3` and `5..8`, and a lookup of `6`. -/
theorem modelBranch_eq_findFileBranch_two_files :
    let files : List (FileMetaData Bytes) :=
      [⟨7, 100, ⟨[49], 4, .value⟩, ⟨[51], 2, .value⟩⟩,
        ⟨8, 100, ⟨[53], 3, .value⟩, ⟨[56], 1, .deletion⟩⟩]
    let m := LearnedIndexData.new 8 1 true
    let m' := { m with
      learned := true, string_keys := boundaryKeys files
      string_segments := [⟨1, 5 / 12, -1 / 3⟩, ⟨8, 0, 0⟩], min_key := 1, max_key := 8, size := 4 }
    (fillLevel files m).1.learn (fun _ => false) = some (m', true) ∧
      modelBranch files m' [54] = some (findFileBranch files [54] (lookupKey [54] 9)) := by
  intro files m m'
  have hlearn : (fillLevel files m).1.learn (fun _ => false) = some (m', true) := by
    decide +kernel
  have hdec : DecimalBounds 1 files := by
    unfold DecimalBounds; decide +kernel
  have hdist : DistinctBounds files := ⟨by decide +kernel, by decide +kernel⟩
  exact ⟨hlearn, modelBranch_eq_findFileBranch files m m' _ 1 1 le_rfl (by decide +kernel) rfl rfl
    hdec hdist hlearn [54] (by decide +kernel) 9 (by decide)⟩

end Bourbon
