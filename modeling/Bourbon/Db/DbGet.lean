import Bourbon.Db.Lookup

/-!
# DBImpl::Get

A read looks into the active memtable, then into the immutable one, then into the version, and
returns the first answer.

* `Arranged.finds` : in every arranged state this is the newest visible entry of all;
* `Arranged.reads_iff` : so `Get` is determined by the set of entries.
-/

namespace Bourbon

variable {K V : Type*} [LinearOrder K]

namespace DBState

/-- The entry that `DBImpl::Get` finds. -/
def getEntry (s : DBState K V) (u : K) (snapshot : ℕ) : Option (Entry K V) :=
  (tableLookup s.mem u snapshot).or
    ((s.imm.bind fun imm => tableLookup imm u snapshot).or
      (versionLookup s.tables s.current u snapshot))

/-- `DBImpl::Get`: the stored value, or `none` for `NotFound`. -/
def get (s : DBState K V) (u : K) (snapshot : ℕ) : Option V := answer (s.getEntry u snapshot)

/-- There are no files behind the last level. -/
def Shallow (s : DBState K V) : Prop := ∀ level, kNumLevels ≤ level → s.current level = []

omit [LinearOrder K] in
theorem Shallow.entries_eq {s : DBState K V} (hshallow : s.Shallow) :
    s.entries = {e | e ∈ s.mem} ∪ (s.immEntries ∪ versionEntries s.tables s.current) := by
  ext e
  refine or_congr_right (or_congr_right ⟨?_, ?_⟩)
  · rintro ⟨level, f, hf, he⟩
    refine ⟨level, ?_, f, hf, he⟩
    by_contra hlevel
    rw [hshallow level (not_lt.1 hlevel)] at hf
    cases hf
  · rintro ⟨level, -, f, hf, he⟩
    exact ⟨level, f, hf, he⟩

end DBState

namespace Arranged

variable {s : DBState K V} {u : K} {snapshot : ℕ}

theorem layered (h : Arranged s) : Layered s.tables s.current :=
  ⟨fun level _ => h.table level, fun level _ => h.ordered level, h.zero,
    fun a b hab _ f hf g hg e he e' he' => h.levels a b hab e ⟨f, hf, he⟩ e' ⟨g, hg, he'⟩⟩

/-- **`Get` finds the newest visible entry.** -/
theorem finds (h : Arranged s) (hshallow : s.Shallow) :
    Finds s.entries u snapshot (s.getEntry u snapshot) := by
  rw [hshallow.entries_eq]
  have himm : Finds s.immEntries u snapshot (s.imm.bind fun imm => tableLookup imm u snapshot) := by
    cases hs : s.imm with
    | none =>
      refine ⟨fun e he => (by cases he), fun _ e ⟨imm, himm, _⟩ => ?_⟩
      rw [hs] at himm
      cases himm
    | some imm =>
      have hset : s.immEntries = {e | e ∈ imm} := by
        ext e
        constructor
        · rintro ⟨imm', himm', he⟩
          rw [hs] at himm'
          exact Option.some.inj himm' ▸ he
        · exact fun he => ⟨imm, hs, he⟩
      rw [hset]
      exact tableLookup_finds (h.imm_sorted imm hs)
  refine (tableLookup_finds h.mem_sorted).or (himm.or (versionLookup_finds h.layered) ?_) ?_
  · rintro e he e' ⟨level, -, f, hf, he'⟩ huser
    exact Newer.le (fun _ => h.imm_level e he level e' ⟨f, hf, he'⟩) huser
  · rintro e he e' (he' | ⟨level, -, f, hf, he'⟩) huser
    · exact Newer.le (fun _ => h.mem_imm e he e' he') huser
    · exact Newer.le (fun _ => h.mem_level e he level e' ⟨f, hf, he'⟩) huser

theorem entry_unique (h : Arranged s) (hshallow : s.Shallow) :
    ∀ e ∈ s.entries, ∀ e' ∈ s.entries, e.1 = e'.1 → e = e' := by
  have hseq : ∀ {e e' : Entry K V}, e.1 = e'.1 → ¬ e'.1.sequence < e.1.sequence :=
    fun heq hlt => absurd (congrArg InternalKey.sequence heq).symm hlt.ne
  rw [hshallow.entries_eq]
  rintro e (he | he | he) e' (he' | he' | he') heq
  · exact eq_of_sorted h.mem_sorted he he' heq
  · exact absurd (h.mem_imm e he e' he') (hseq heq)
  · obtain ⟨level, -, f, hf, he'⟩ := he'
    exact absurd (h.mem_level e he level e' ⟨f, hf, he'⟩) (hseq heq)
  · exact absurd (h.mem_imm e' he' e he) (hseq heq.symm)
  · obtain ⟨imm, himm, he⟩ := he
    obtain ⟨imm', himm', he'⟩ := he'
    obtain rfl := Option.some.inj (himm.symm.trans himm')
    exact eq_of_sorted (h.imm_sorted imm himm) he he' heq
  · obtain ⟨level, -, f, hf, he'⟩ := he'
    exact absurd (h.imm_level e he level e' ⟨f, hf, he'⟩) (hseq heq)
  · obtain ⟨level, -, f, hf, he⟩ := he
    exact absurd (h.mem_level e' he' level e ⟨f, hf, he⟩) (hseq heq.symm)
  · obtain ⟨level, -, f, hf, he⟩ := he
    exact absurd (h.imm_level e' he' level e ⟨f, hf, he⟩) (hseq heq.symm)
  · exact h.layered.unique e he e' he' heq

/-- **`Get` answers the read** over all entries. -/
theorem reads_iff (h : Arranged s) (hshallow : s.Shallow) (r : Option V) :
    Reads s.entries u snapshot r ↔ r = s.get u snapshot :=
  (h.finds hshallow).reads_iff (h.entry_unique hshallow) r

end Arranged

end Bourbon
